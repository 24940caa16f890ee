import KwaqueStorage.Checkpoint.Owners

/-!
# Checkpoints over stops and failures

Every step of the two owners keeps `Owned`, every stop leaves `Kept`, and `Kept` is what a reopen
needs to start from `Owned` again. So over every run of any number of processes, with any file or
control operation failing anywhere, whichever control record is in place after a stop names a
bundle that is there and ends at or after every WAL file that is gone.
-/

namespace KwaqueStorage.Checkpoint

variable {d d' : Device} {p p' : Process} {k : Checkpointer}

/-- **Every stretch of a run keeps what its owners know.** -/
theorem Owned.runStep (h : Owned d p) (hk : p.checkpointer = some k) {event : Event}
    (ha : Checkpoint.runStep d p k event = some (d', p')) : Owned d' p' := by
  have hrun := h.run k hk
  have hwait := hrun.phase
  cases event with
  | restore =>
    simp only [Checkpoint.runStep] at ha
    split at ha
    next => simp at ha
    next =>
      cases ha
      exact h.asked hk rfl rfl rfl id fun _ => id
  | recover =>
    cases ha
    exact h.asked hk rfl rfl rfl id fun _ => id
  | hold =>
    simp only [Checkpoint.runStep] at ha
    split at ha
    next => simp at ha
    next hfree =>
      cases ha
      refine h.asked hk rfl rfl rfl id fun hu => ?_
      -- an update of its own is publishing, and then no hold is given
      obtain ⟨u, _, _, k₀, _, _, hk₀, _, hpub, _⟩ := h.own hu
      obtain rfl : k = k₀ := by simpa [hk] using hk₀
      exact absurd hpub (not_or.mp hfree).2
  | unhold index =>
    cases ha
    refine h.asked hk rfl rfl rfl id fun _ hnil => ?_
    show k.holds.eraseIdx index = []
    rw [hnil, List.eraseIdx_nil]
  | letGo =>
    simp only [Checkpoint.runStep] at ha
    split at ha
    next => simp at ha
    next =>
      cases ha
      exact h.asked hk rfl rfl rfl id fun _ => id
  | fail =>
    cases ha
    exact h.asked hk rfl rfl rfl (fun _ => rfl) fun _ => id
  | thrown =>
    simp only [Checkpoint.runStep] at ha
    split at ha
    next => simp at ha
    next hu =>
      cases ha
      exact h.ends hk (by simpa using hu)
  | cut answer =>
    cases hphase : k.phase with
    | idle =>
      simp only [Checkpoint.runStep, hphase] at ha
      cases ha
      exact h.cut hk hphase answer
    | _ => simp [Checkpoint.runStep, hphase] at ha
  | pinned ok =>
    cases hphase : k.phase with
    | pinning cut =>
      rw [hphase] at hwait
      simp only [Checkpoint.runStep, hphase] at ha
      cases ha
      refine h.goOn hk (by simp [hphase]) (by simp [hphase, Phase.updates]) ⟨hrun.debts, ?_⟩
      cases ok with
      | true => exact hwait
      | false => trivial
    | _ => simp [Checkpoint.runStep, hphase] at ha
  | allocated ok =>
    cases hphase : k.phase with
    | allocating cut =>
      rw [hphase] at hwait
      have hi : k.phase ≠ .idle := by simp [hphase]
      have hu : k.phase.updates = false := by simp [hphase, Phase.updates]
      simp only [Checkpoint.runStep, hphase] at ha
      split at ha
      next =>
        cases ha
        exact h.goOn hk hi hu ⟨hrun.debts, trivial⟩
      next =>
        split at ha
        next hg =>
          cases ha
          have hnext := h.next
          refine hnext.goOn hk hi hu ⟨(hnext.run k hk).debts, hwait, h.known.next_fresh hg.2, ?_⟩
          intro hmem
          have := (hrun.debts _ hmem).2.served hg.2
          omega
        next => simp at ha
    | _ => simp [Checkpoint.runStep, hphase] at ha
  | encoded digest =>
    cases hphase : k.phase with
    | encoding cut sequence =>
      rw [hphase] at hwait
      simp only [Checkpoint.runStep, hphase] at ha
      cases ha
      refine h.goOn hk (by simp [hphase]) (by simp [hphase, Phase.updates]) ⟨hrun.debts, ?_⟩
      cases digest with
      | none => trivial
      | some x => exact hwait
    | _ => simp [Checkpoint.runStep, hphase] at ha
  | bundled answer =>
    cases hphase : k.phase with
    | bundling cut reference =>
      rw [hphase] at hwait
      obtain ⟨hthere, howed⟩ := h.bundled hk hphase
      cases answer with
      | durable =>
        simp only [Checkpoint.runStep, hphase] at ha
        cases ha
        exact hthere
      | failed name =>
        simp only [Checkpoint.runStep, hphase] at ha
        cases ha
        cases name with
        | true => exact howed _
        | false =>
          refine h.goOn hk (by simp [hphase]) (by simp [hphase, Phase.updates]) ⟨?_, trivial⟩
          intro q hq
          rcases mem_owe hq with hq | rfl
          · exact hrun.debts q hq
          · exact hwait.2.1
    | _ => simp [Checkpoint.runStep, hphase] at ha
  | refused =>
    cases hphase : k.phase with
    | updating cut reference =>
      simp only [Checkpoint.runStep, hphase] at ha
      split at ha
      next => simp at ha
      next hu =>
        cases ha
        exact h.refused hk hphase (by simpa using hu) _
    | _ => simp [Checkpoint.runStep, hphase] at ha
  | turn =>
    cases hphase : k.phase with
    | updating cut reference =>
      simp only [Checkpoint.runStep, hphase] at ha
      split at ha
      next => simp at ha
      next hfree =>
        have hturn : p.head.turn = none := by simpa using (not_or.mp hfree).2
        have hu : p.head.updates = false := by simp [Head.updates, hturn]
        split at ha
        next =>
          cases ha
          exact h.refused hk hphase hu _
        next candidate he =>
          split at ha
          next =>
            cases ha
            exact h.refused hk hphase hu _
          next hp =>
            cases ha
            simpa only [hphase] using h.takeTurn hturn hk hphase he (by simpa using hp)
    | _ => simp [Checkpoint.runStep, hphase] at ha
  | retired removal =>
    cases hphase : k.phase with
    | retiring sequence =>
      rw [hphase] at hwait
      simp only [Checkpoint.runStep, hphase] at ha
      cases ha
      refine Owned.removeBundle ?_ hwait.1 removal (by simp [Process.withPhase, Phase.updates])
      refine h.goOn hk (by simp [hphase]) (by simp [hphase, Phase.updates]) ⟨?_, trivial⟩
      intro q hq
      have hmem : q ∈ owe k.debts sequence ∨ q ∈ k.debts := by
        cases ht : removal.told with
        | true => exact .inr (by simpa [ht] using hq)
        | false => exact .inl (by simpa [ht] using hq)
      rcases hmem with hmem | hmem
      · rcases mem_owe hmem with hmem | rfl
        · exact hrun.debts q hmem
        · exact hwait
      · exact hrun.debts q hmem
    | _ => simp [Checkpoint.runStep, hphase] at ha
  | settled removal =>
    cases hphase : k.phase with
    | settling kept todo =>
      rw [hphase] at hwait
      have hi : k.phase ≠ .idle := by simp [hphase]
      have hu : k.phase.updates = false := by simp [hphase, Phase.updates]
      cases todo with
      | nil =>
        simp only [Checkpoint.runStep, hphase] at ha
        cases ha
        refine h.goOn hk hi hu ⟨fun q hq => hwait q (by simpa using hq), ?_⟩
        unfold reclaim
        cases he : p.head.checkpointEnd with
        | none => trivial
        | some cutoff => exact he
      | cons sequence todo =>
        simp only [Checkpoint.runStep, hphase] at ha
        cases ha
        have hgone := hwait sequence (by simp)
        refine Owned.removeBundle ?_ hgone.1 removal (by simp [Process.withPhase, Phase.updates])
        refine h.goOn hk hi hu ⟨hrun.debts, ?_⟩
        intro q hq
        apply hwait q
        split at hq <;> simp at hq ⊢ <;> tauto
    | _ => simp [Checkpoint.runStep, hphase] at ha
  | reclaimed removal =>
    cases hphase : k.phase with
    | reclaiming cutoff =>
      have hi : k.phase ≠ .idle := by simp [hphase]
      have hu : k.phase.updates = false := by simp [hphase, Phase.updates]
      have hends : ∀ {d}, Owned d p → Owned d (p.withPhase k .idle) :=
        fun h' => h'.goOn hk hi hu ⟨(h'.run k hk).debts, trivial⟩
      simp only [Checkpoint.runStep, hphase] at ha
      split at ha
      next n oldest rest hbelow hold =>
        have hgone := h.reclaimed hk hphase hold hbelow removal
        split at ha
        next =>
          cases ha
          exact hgone.setRetained _
        next =>
          cases ha
          exact hends hgone
      next =>
        cases ha
        exact hends h
    | _ => simp [Checkpoint.runStep, hphase] at ha
  | _ => simp [Checkpoint.runStep] at ha

/-- **Every step of a live process keeps what its owners know.** -/
theorem Owned.act (h : Owned d p) {event : Event}
    (ha : Checkpoint.act d p event = some (d', p')) : Owned d' p' := by
  cases event with
  | sweepBundles =>
    simp only [Checkpoint.act] at ha
    split at ha
    next hg =>
      cases ha
      refine h.setSweep _ ?_
      intro w hw
      cases hw
      exact ⟨Option.isNone_iff_eq_none.mp hg.1, rfl⟩
    next => simp at ha
  | sweepBundle sequence removal =>
    simp only [Checkpoint.act] at ha
    split at ha
    next kept hw =>
      obtain ⟨hc, rfl⟩ := h.sweep _ hw
      split at ha
      next => simp at ha
      next hkept =>
        cases ha
        refine h.removeBundle ?_ removal (by simp [hc])
        intro c hmem r hr
        rw [h.alike (h.not_divided_of_sweep hc) c hmem] at hr
        simpa [hr] using hkept
    next => simp at ha
  | sweepWal =>
    simp only [Checkpoint.act] at ha
    split at ha
    next hg =>
      cases ha
      refine h.setSweep _ ?_
      intro w hw
      cases hw
      exact ⟨Option.isNone_iff_eq_none.mp hg.1, rfl⟩
    next => simp at ha
  | sweepWalFile incarnation removal =>
    simp only [Checkpoint.act] at ha
    split at ha
    next durable hw =>
      obtain ⟨hc, hcut⟩ := h.sweep _ hw
      split at ha
      next hlt =>
        cases ha
        exact h.removeWal (h.not_divided_of_sweep hc) hcut.symm hlt removal
      next => simp at ha
    next => simp at ha
  | sweepDone =>
    simp only [Checkpoint.act] at ha
    split at ha
    next =>
      cases ha
      exact h.setSweep none (by simp)
    next => simp at ha
  | make origin =>
    simp only [Checkpoint.act] at ha
    split at ha
    next => simp at ha
    next hfree =>
      split at ha
      next => simp at ha
      next =>
        cases ha
        exact h.make origin (by simpa using hfree)
  | extended file =>
    simp only [Checkpoint.act, Option.map_eq_some_iff] at ha
    obtain ⟨retained, _, ha⟩ := ha
    cases ha
    exact h.setRetained retained
  | burn =>
    simp only [Checkpoint.act] at ha
    split at ha
    next =>
      cases ha
      exact h.next
    next => simp at ha
  | ask edit =>
    simp only [Checkpoint.act] at ha
    split at ha
    next => simp at ha
    next hfree =>
      split at ha
      next => simp at ha
      next candidate he =>
        split at ha
        next => simp at ha
        next hp =>
          cases ha
          exact h.ask (by simpa using (not_or.mp hfree).2) he (by simpa using hp)
  | loaded ok =>
    simp only [Checkpoint.act] at ha
    split at ha
    next u ht =>
      split at ha
      next => simp at ha
      next hs =>
        split at ha
        next =>
          cases ha
          exact h.untouched ht (by simp [not_not.mp hs]) false
        next end_ hl =>
          cases ha
          exact h.loaded ht (not_not.mp hs) hl
    next => simp at ha
  | abandoned fences =>
    simp only [Checkpoint.act] at ha
    split at ha
    next u ht =>
      split at ha
      next => simp at ha
      next hs =>
        cases ha
        exact h.untouched ht (by simp [not_not.mp hs]) fences
    next => simp at ha
  | renamed =>
    simp only [Checkpoint.act] at ha
    split at ha
    next u ht =>
      split at ha
      next => simp at ha
      next hs =>
        cases ha
        exact h.rename ht (not_not.mp hs)
    next => simp at ha
  | published answer adopted =>
    simp only [Checkpoint.act] at ha
    split at ha
    next u ht =>
      split at ha
      next => simp at ha
      next hs =>
        cases ha
        exact h.published ht (not_not.mp hs) answer adopted
    next => simp at ha
  | _ =>
    simp only [Checkpoint.act, Option.bind_eq_some_iff] at ha
    obtain ⟨k, hk, ha⟩ := ha
    exact h.runStep hk ha

/-! ## Runs -/

/-- What holds of a shard between any two steps. -/
structure Safe (s : State) : Prop where
  kept : Kept s.device
  owned : ∀ p, s.process = some p → Owned s.device p

/-- The root of a bundle that a reference names. -/
theorem Device.root_eq {reference : Reference} {b : Bundle} {ok : Bool} {root : Root}
    (hb : d.bundles reference.sequence = some b) (h : d.root reference ok = some root) :
    root = b.root := by
  simp only [Device.root, hb] at h
  split at h
  next => exact (Option.some.inj h).symm
  next => simp at h

/-- A reopen starts from what the device keeps: no sequence is given before one is reserved, and
    nothing is owed. -/
theorem open_owned (h : Kept d) {c : Control} (hc : d.records = [c]) {read : Bool}
    {retained : List Nat} {walRecovered : Bool}
    (ho : open_ d c read retained walRecovered = some p) : Owned d p := by
  have hmem : c ∈ d.records := by simp [hc]
  have hfresh : ∃ end_, p = { head := ⟨c, end_, false, none⟩, retained, walRecovered }
      ∧ end_ = d.cutoff c := by
    unfold open_ at ho
    split at ho
    next => simp at ho
    next =>
      cases hr : c.checkpoint with
      | none =>
        simp only [hr] at ho
        exact ⟨none, (Option.some.inj ho).symm, by simp [Device.cutoff, hr]⟩
      | some reference =>
        simp only [hr, Option.map_eq_some_iff] at ho
        obtain ⟨root, hroot, rfl⟩ := ho
        obtain ⟨root', hb⟩ := h.backed c hmem reference hr
        refine ⟨some root.end_, rfl, ?_⟩
        simp [Device.cutoff, hr, hb, Device.root_eq hb hroot]
  obtain ⟨end_, rfl, hend⟩ := hfresh
  refine ⟨⟨h, hmem, ?_, hend, by simp, ?_⟩, by simp, ?_, by simp, by simp⟩
  · intro c' hc'
    obtain rfl : c' = c := by simpa [hc] using hc'
    exact le_rfl
  · intro q b hb
    exact ⟨h.used c hmem q b hb, by simp⟩
  · intro _ c' hc'
    obtain rfl : c' = c := by simpa [hc] using hc'
    rfl

/-- **One step of the shard keeps it safe.** -/
theorem Safe.step {s s' : State} (h : Safe s) {event : Event}
    (hs : Checkpoint.step s event = some s') : Safe s' := by
  have hact : ∀ p, s.process = some p →
      ((Checkpoint.act s.device p event).map fun out => (⟨out.1, some out.2⟩ : State))
        = some s' → Safe s' := by
    intro p hp hs
    obtain ⟨⟨d', p'⟩, ha, rfl⟩ := Option.map_eq_some_iff.mp hs
    have howned := (h.owned p hp).act ha
    refine ⟨howned.known.kept, ?_⟩
    intro p₁ hp₁
    cases hp₁
    exact howned
  unfold Checkpoint.step at hs
  split at hs
  next =>
    cases hs
    exact ⟨h.kept, by simp⟩
  next p hp _ => exact hact _ hp hs
  next record read confirmed retained walRecovered hp =>
    split at hs
    next => simp at hs
    next c hc =>
      split at hs
      next =>
        cases hs
        exact h
      next =>
        obtain ⟨p, ho, rfl⟩ := Option.map_eq_some_iff.mp hs
        have hkept := h.kept.only (List.mem_of_getElem? hc)
        refine ⟨hkept, ?_⟩
        intro p₁ hp₁
        cases hp₁
        exact open_owned hkept rfl ho
  next => simp at hs

theorem reachable_safe {s : State} (h : system.Reachable s) : Safe s := by
  refine h.invariant ?_ fun s a s' _ hs _ hstep => hs.step hstep
  rintro s rfl
  refine ⟨⟨?_, ?_, ?_⟩, by simp⟩ <;> intro c hc <;> obtain rfl := List.mem_singleton.mp hc
  · simp
  · simp
  · simp

/-! ## The head moves -/

@[simp] theorem Device.records_addBundle (d : Device) (sequence : Nat) (b : Bundle) :
    (d.addBundle sequence b).records = d.records := rfl

@[simp] theorem Device.records_removeBundle (d : Device) (sequence : Nat) (r : Removal) :
    (d.removeBundle sequence r).records = d.records := by
  unfold Device.removeBundle
  split <;> rfl

@[simp] theorem Device.records_removeWal (d : Device) (incarnation : Nat) (r : Removal) :
    (d.removeWal incarnation r).records = d.records := by
  unfold Device.removeWal
  split <;> rfl

@[simp] theorem Process.head_withPhase (p : Process) (c : Checkpointer) (phase : Phase) :
    (p.withPhase c phase).head = p.head := rfl

@[simp] theorem Process.current_untouched (p : Process) (u : Update) (fences : Bool) :
    (p.untouched u fences).head.current = p.head.current := by
  unfold Process.untouched
  simp only
  split
  · split <;> rfl
  · rfl

theorem Process.current_published (p : Process) (u : Update) (answer : RenameAnswer)
    (adopted : Bool) : (p.published u answer adopted).head.current = p.head.current
      ∨ (p.published u answer adopted).head.current = u.candidate := by
  unfold Process.published
  cases answer with
  | uncertain =>
    refine .inl ?_
    simp only
    split <;> rfl
  | durable clean =>
    refine .inr ?_
    simp only
    split
    · split <;> rfl
    · split <;> rfl
    · rfl

/-- A stretch of a run writes no record. -/
theorem runStep_frame {event : Event} (ha : runStep d p k event = some (d', p')) :
    d'.records = d.records ∧ p'.head.current = p.head.current := by
  unfold runStep at ha
  split at ha <;> (try simp only at ha) <;> repeat' split at ha
  all_goals first
    | simp at ha; done
    | cases ha
      simp

/-- **What a step can make durable**: nothing new, or what the update in its turn asks for once its
    dependencies are loaded. -/
theorem act_frame {event : Event} (ha : act d p event = some (d', p')) :
    (d'.records = d.records ∧ p'.head.current = p.head.current)
      ∨ ∃ u, p.head.turn = some u ∧ u.stage ≠ .edited
        ∧ (∀ c ∈ d'.records, c ∈ d.records ∨ c = u.candidate)
        ∧ (p'.head.current = p.head.current ∨ p'.head.current = u.candidate) := by
  cases event with
  | renamed =>
    simp only [act] at ha
    split at ha
    next u ht =>
      split at ha
      next => simp at ha
      next hs =>
        cases ha
        refine .inr ⟨u, ht, by simp [not_not.mp hs], ?_, .inl rfl⟩
        intro c hc
        exact (List.mem_cons.mp hc).symm
    next => simp at ha
  | published answer adopted =>
    simp only [act] at ha
    split at ha
    next u ht =>
      split at ha
      next => simp at ha
      next hs =>
        cases ha
        refine .inr ⟨u, ht, by simp [not_not.mp hs], ?_, p.current_published u answer adopted⟩
        intro c hc
        split at hc
        next => exact .inl hc
        next => exact .inr (List.mem_singleton.mp hc)
    next => simp at ha
  | extended file =>
    simp only [act, Option.map_eq_some_iff] at ha
    obtain ⟨retained, _, ha⟩ := ha
    cases ha
    exact .inl ⟨rfl, rfl⟩
  | sweepBundles | sweepBundle | sweepWal | sweepWalFile | sweepDone | make | burn | ask | loaded
  | abandoned =>
    refine .inl ?_
    simp only [act] at ha
    repeat' split at ha
    all_goals first
      | simp at ha; done
      | cases ha
        simp
  | _ =>
    simp only [act, Option.bind_eq_some_iff] at ha
    obtain ⟨k, _, ha⟩ := ha
    exact .inl (runStep_frame ha)

/-- A record that may be durable names this checkpoint. -/
def State.Names (s : State) (r : Reference) : Prop := ∃ c ∈ s.device.records, c.checkpoint = some r

/-- **A step moves the head to a checkpoint**: a record that names it may be durable where none was,
    or the owner's own record names it where it did not. -/
def Moves (s s' : State) (r : Reference) : Prop :=
  ¬ s.Names r ∧ s'.Names r
    ∨ ∃ p p', s.process = some p ∧ s'.process = some p'
      ∧ p.head.current.checkpoint ≠ some r ∧ p'.head.current.checkpoint = some r

/-- A hold given at `hold` is behind this cutoff. One given before there was a checkpoint is behind
    any. -/
def Precedes (hold : Option Cursor) (cutoff : Cursor) : Prop := ∀ c, hold = some c → c < cutoff

/-- The head moves by the checkpoint's own update, and only to what is there. -/
theorem Owned.moves (h : Owned d p) {event : Event} (ha : Checkpoint.act d p event = some (d', p'))
    {r : Reference}
    (hm : (∀ c ∈ d.records, c.checkpoint ≠ some r) ∧ (∃ c ∈ d'.records, c.checkpoint = some r)
      ∨ p.head.current.checkpoint ≠ some r ∧ p'.head.current.checkpoint = some r) :
    ∃ root, d.bundles r.sequence = some ⟨r, root, true⟩
      ∧ ∀ k, p.checkpointer = some k → k.holds = [] := by
  rcases act_frame ha with ⟨hrec, hcur⟩ | ⟨u, ht, hs, hrec, hcur⟩
  · rw [hrec, hcur] at hm
    rcases hm with ⟨hno, c, hc, hr⟩ | ⟨hno, hr⟩
    · exact absurd hr (hno c hc)
    · exact absurd hr hno
  · have hnew : u.candidate.checkpoint = some r ∧ p.head.current.checkpoint ≠ some r := by
      rcases hm with ⟨hno, c, hc, hr⟩ | ⟨hno, hr⟩
      · rcases hrec c hc with hold | rfl
        · exact absurd hr (hno c hold)
        · exact ⟨hr, hno _ h.known.possible⟩
      · rcases hcur with hcur | hcur
        · exact absurd (hcur ▸ hr) hno
        · exact ⟨hcur ▸ hr, hno⟩
    have hsound := h.turn u ht
    have ho : u.owner = .checkpoint := by
      by_contra ho
      exact hnew.2 ((hsound.same ho).1 ▸ hnew.1)
    obtain ⟨root, hroot⟩ := (h.candidate_kept ht hs).1 r hnew.1
    obtain ⟨k, _, _, hk, _, _, hholds, _⟩ := hsound.own ho
    refine ⟨root, hroot, ?_⟩
    intro k' hk'
    obtain rfl : k = k' := by simpa [hk] using hk'
    exact hholds

theorem Safe.moves {s s' : State} (h : Safe s) {event : Event}
    (hs : Checkpoint.step s event = some s') {r : Reference} (hm : Moves s s' r) :
    ∃ root, s.device.bundles r.sequence = some ⟨r, root, true⟩
      ∧ ∀ p k, s.process = some p → p.checkpointer = some k → k.holds = [] := by
  have hnames : ∀ {s : State}, ¬ s.Names r → ∀ c ∈ s.device.records, c.checkpoint ≠ some r :=
    fun hno c hc hr => hno ⟨c, hc, hr⟩
  unfold Checkpoint.step at hs
  split at hs
  next hp =>
    cases hs
    rcases hm with ⟨hno, hyes⟩ | ⟨_, _, _, hnone, _⟩
    · exact absurd hyes hno
    · simp at hnone
  next p hp _ =>
    obtain ⟨⟨d', p'⟩, ha, rfl⟩ := Option.map_eq_some_iff.mp hs
    obtain ⟨root, hroot, hholds⟩ := (h.owned _ hp).moves ha (r := r) (by
      rcases hm with ⟨hno, hyes⟩ | ⟨p₁, p₂, hp₁, hp₂, hne, heq⟩
      · exact .inl ⟨hnames hno, hyes⟩
      · obtain rfl := Option.some.inj (hp.symm.trans hp₁)
        cases hp₂
        exact .inr ⟨hne, heq⟩)
    refine ⟨root, hroot, ?_⟩
    intro p₁ k hp₁ hk
    obtain rfl := Option.some.inj (hp.symm.trans hp₁)
    exact hholds k hk
  next record read confirmed retained walRecovered hp =>
    -- a reopen names nothing that was not named, and there was no head before it
    rcases hm with ⟨hno, c, hc, hr⟩ | ⟨_, _, hsome, _⟩
    · refine absurd hr ?_
      split at hs
      next => simp at hs
      next c₀ hc₀ =>
        split at hs
        next =>
          cases hs
          exact hnames hno c hc
        next =>
          obtain ⟨_, _, rfl⟩ := Option.map_eq_some_iff.mp hs
          obtain rfl := List.mem_singleton.mp hc
          exact hnames hno c (List.mem_of_getElem? hc₀)
    · simp [hp] at hsome
  next => simp at hs

/-- A cursor of an earlier file is before the cutoff. -/
theorem cursor_lt_of_incarnation {i position : Nat} {cutoff : Cursor} (h : i < cutoff.incarnation) :
    (⟨i, position⟩ : Cursor) < cutoff := by
  show toLex (i, position) < toLex (cutoff.incarnation, cutoff.position)
  exact Prod.Lex.toLex_lt_toLex.mpr (.inl h)

/-- **Checkpoints are safe over stops and failures.** In every state of every run, the bundle of
    every control record that may be durable is there and durable; every WAL file that was removed
    ends, wherever it ends, before the cutoff of every one of these records; and every step that
    moves the head moves it to a bundle that is durable before the step, past no hold held then. -/
theorem checkpoint_crash_safe {s : State} (h : system.Reachable s) :
    (∀ c ∈ s.device.records, ∀ r, c.checkpoint = some r →
      ∃ root, s.device.bundles r.sequence = some ⟨r, root, true⟩)
    ∧ (∀ c ∈ s.device.records, ∀ i ∈ s.device.removed, ∃ cutoff,
      s.device.cutoff c = some cutoff ∧ ∀ position, (⟨i, position⟩ : Cursor) < cutoff)
    ∧ ∀ event s' r, step s event = some s' → Moves s s' r →
      ∃ root, s.device.bundles r.sequence = some ⟨r, root, true⟩
        ∧ ∀ p k, s.process = some p → p.checkpointer = some k →
          ∀ hold ∈ k.holds, ¬ Precedes hold root.end_ := by
  have hsafe := reachable_safe h
  refine ⟨hsafe.kept.backed, ?_, ?_⟩
  · intro c hc i hi
    obtain ⟨cutoff, hcut, hlt⟩ := hsafe.kept.needed c hc i hi
    exact ⟨cutoff, hcut, fun _ => cursor_lt_of_incarnation hlt⟩
  · intro event s' r hs hm
    obtain ⟨root, hroot, hholds⟩ := hsafe.moves hs hm
    refine ⟨root, hroot, ?_⟩
    intro p k hp hk hold hmem
    simp [hholds p k hp hk] at hmem

/-- A first checkpoint: the WAL's head and a range of sequences are reserved, the second file
    begins, the head moves to a cutoff in it, and the first file goes. -/
def firstCheckpoint : List Event :=
  [.open_ 0 true true [1] false,
    .ask (.reserveWal 2), .loaded true, .renamed, .published (.durable true) true,
    .ask (.walHead none ⟨1, 7⟩), .loaded true, .renamed, .published (.durable true) true,
    .ask (.reserveObjects 4), .loaded true, .renamed, .published (.durable true) true,
    .make ⟨1, 0⟩, .extended 2, .cut ⟨some ⟨⟨2, 40⟩, ⟨2, 30⟩⟩, true, false, true⟩,
    .pinned true, .allocated true, .encoded (some 9), .bundled .durable, .turn, .loaded true,
    .renamed, .published (.durable true) true, .settled ⟨true, true⟩, .reclaimed ⟨true, true⟩]

theorem firstCheckpoint_safe :
    ∃ s c, system.exec ⟨⟨[{}], fun _ => none, []⟩, none⟩ firstCheckpoint = some s
      ∧ s.device.records = [c] ∧ c.checkpoint = some ⟨1, 9⟩ ∧ s.device.removed = [1]
      ∧ s.device.cutoff c = some ⟨2, 30⟩
      ∧ ∀ position, (⟨1, position⟩ : Cursor) < ⟨2, 30⟩ := by
  refine ⟨_, _, rfl, rfl, rfl, rfl, rfl, ?_⟩
  have hreach := Lib.System.Run.of_exec (M := system) (.init rfl)
    (show system.exec ⟨⟨[{}], fun _ => none, []⟩, none⟩ firstCheckpoint = some _ from rfl)
  intro position
  obtain ⟨cutoff, hcut, hlt⟩ := (checkpoint_crash_safe hreach).2.1 _ List.mem_cons_self 1
    List.mem_cons_self
  obtain rfl : (⟨2, 30⟩ : Cursor) = cutoff := Option.some.inj hcut
  exact hlt position

end KwaqueStorage.Checkpoint
