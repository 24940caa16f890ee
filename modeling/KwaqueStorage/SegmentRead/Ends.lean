import KwaqueStorage.SegmentRead.Chain

/-!
# A read ends, and says why

Every turn that does not end a read uses something up: a block that is left, a group the feed has not
taken, bytes its writer has not written, the place that was handed in, the one report to the index;
or, with all of these as they were, it goes further in the stretch it reads. So a read of a finite
segment takes finitely many turns. What it says when it stops is so where the bounds of its session
are: its sealed end is where the segment's records end, and the feed may be read as far as its
durable bound.
-/

namespace KwaqueStorage.SegmentRead

open Scan Extent SegmentRun

variable {codec : RunCodec} {history : History}

/-- What the environment of a read uses up: groups the feed has not taken, and how far the file was
    written. -/
structure World where
  groups : Nat
  written : Nat
  deriving DecidableEq

/-- **What is answered in a turn is consistent**: the file only grows, the feed takes groups there
    are, and the run of an anchor the index names holds the offset or reaches the durable bound. -/
structure Steady (objs : List (Obj codec history)) (bound : Bounds) (w : World) (l : Loop)
    (a : Answers) (w' : World) : Prop where
  written : w.written ≤ a.written ∧ a.written ≤ a.writtenThen ∧ a.writtenThen ≤ a.writtenAfter
    ∧ a.writtenAfter ≤ w'.written ∧ w'.written ≤ u64Max
  groups : w'.groups ≤ w.groups
  caughtUp : a.caughtUp = true → w'.groups < w.groups
  located : ∀ base position end_, a.located = .ok (some (base, position, end_)) →
    bound.durable ≤ end_
      ∨ ∃ first rest, beyond (blocksOf objs) l.cursor = first :: rest
        ∧ first.records.bytes.end_ ≤ end_

/-- What a turn uses up. -/
def stock (objs : List (Obj codec history)) (w : World) (l : Loop) : Nat :=
  (beyond (blocksOf objs) l.cursor).length + w.groups + (u64Max - w.written)
    + l.hint.isSome.toNat + (!l.reported).toNat

/-- The stretch that is read on holds nothing that is left. -/
def stale (objs : List (Obj codec history)) (bound : Bounds) (l : Loop) : Bool :=
  decide (l.resumeEnd < bound.durable)
    && !(beyond (blocksOf objs) l.cursor).head?.any
      fun first => decide (first.records.bytes.end_ ≤ l.resumeEnd)

/-- How much of the stretch is left. -/
def stretch (objs : List (Obj codec history)) (bound : Bounds) (l : Loop) : Nat :=
  match l.resume with
  | none => bound.durable + 1
  | some start =>
    l.resumeEnd - start.position + (if stale objs bound l then bound.durable + 2 else 0)

section Moves

variable {objs : List (Obj codec history)} {bound : Bounds} {request : Request} {config : Config}
  {a : Answers} {l l' : Loop} {w w' : World} {run : Run} {readable until_ : Nat}

theorem Steady.later (h : Steady objs bound w l a w') :
    w'.groups + (u64Max - w'.written) ≤ w.groups + (u64Max - w.written) := by
  obtain ⟨h₁, h₂, h₃, h₄, h₅⟩ := h.written
  have := h.groups
  omega

/-- What is taken is used up. -/
theorem Took.stock {taken : List (Laid codec history)} {places : Nat → Prop}
    (h : Took (blocksOf objs) bound readable places l l' taken) (hsteady : Steady objs bound w l a w') :
    stock objs w' l' + taken.length ≤ stock objs w l := by
  have hlength := congrArg List.length h.front
  rw [List.length_append] at hlength
  have hlater := hsteady.later
  have hreported := h.same.2.2.2
  have hhint : l'.hint.isSome.toNat ≤ l.hint.isSome.toNat := by
    by_cases hnone : taken = []
    · rw [(h.none_ hnone).2.2]
    · rw [(h.some_ hnone).2.1]
      exact Nat.zero_le _
  unfold SegmentRead.stock
  rw [hreported]
  omega

/-- Where a load reads from: a place only when one was handed in, the writer's memory only past what
    is in the file, and a stretch that is read on from where it stopped. -/
theorem loadRun_from {file : File} {start : RunStart} (hstart : start.position < bound.durable)
    {end_ : Nat} {answered whole : Bool} {loaded : Loaded}
    (hloaded : loadRun codec history file config bound a l start end_ answered whole = loaded) :
    (loaded.hinted = true → l.hint.isSome = true)
      ∧ (∀ from_, loaded.heldFrom = some from_ →
        inFile bound a.writtenThen ≤ from_ ∧ from_ < bound.durable)
      ∧ (answered = false → whole = false → ∀ run funded, loaded.result = .ok (run, funded) →
        ReadFrom codec history file start run) := by
  unfold loadRun at hloaded
  simp only at hloaded
  split at hloaded
  next shared hshared =>
    obtain rfl := hloaded.symm
    refine ⟨by simp, by simp, ?_⟩
    rintro rfl rfl
    simp at hshared
  next =>
    split at hloaded
    next =>
      obtain rfl := hloaded.symm
      exact ⟨by simp, by simp, by simp⟩
    next =>
      generalize hhinted : (Option.bind (l.hint.filter fun hint =>
        answered && decide (start.position < hint) && decide (hint < min end_ bound.durable))
          fun hint => placedStart history hint l.cursor) = hinted at hloaded
      have hplaced : hinted.isSome = true → l.hint.isSome = true ∧ answered = true := by
        intro hsome
        obtain ⟨placed, rfl⟩ := Option.isSome_iff_exists.mp hsome
        obtain ⟨place, hfilter, _⟩ := Option.bind_eq_some_iff.mp hhinted
        rw [Option.filter_eq_some_iff] at hfilter
        simp only [Bool.and_eq_true] at hfilter
        exact ⟨by rw [hfilter.1]; rfl, hfilter.2.1.1⟩
      have hwithin : (hinted.getD start).position < bound.durable := by
        cases hinted with
        | none => exact hstart
        | some placed =>
          obtain ⟨place, hfilter, hat⟩ := Option.bind_eq_some_iff.mp hhinted
          rw [Option.filter_eq_some_iff] at hfilter
          simp only [Bool.and_eq_true, decide_eq_true_eq] at hfilter
          unfold placedStart at hat
          simp only at hat
          obtain ⟨_, ⟨⟩⟩ := Option.ite_none_left_eq_some.mp hat
          show place < bound.durable
          omega
      have hown : answered = false → hinted.getD start = start := by
        intro hno
        cases hinted with
        | none => rfl
        | some placed => exact absurd (hplaced rfl).2 (by simp [hno])
      split at hloaded
      next =>
        obtain rfl := hloaded.symm
        refine ⟨fun hsome => (hplaced hsome).1, by simp, ?_⟩
        intro hno _ run funded hrun
        rw [hown hno] at hrun
        simp only at hrun
        cases hread : readAlone codec history file config start
            (min (min end_ bound.durable) (inFile bound a.writtenThen))
            (inFile bound a.writtenThen) a.turned a.attempt with
        | error why =>
          rw [hread] at hrun
          cases hrun
        | ok own =>
          rw [hread] at hrun
          obtain ⟨rfl, _⟩ := Prod.mk.inj (Except.ok.inj hrun)
          exact readAlone_readFrom hread
      next hmemory =>
        obtain rfl := hloaded.symm
        refine ⟨fun hsome => (hplaced hsome).1, ?_, ?_⟩
        · intro from_ hfrom
          cases hfrom
          exact ⟨not_lt.mp hmemory, hwithin⟩
        · intro hno _ run funded hrun
          rw [hown hno] at hrun
          simp only at hrun
          cases hread : readHeld codec history file config start (min end_ bound.durable) a.turned
              a.attempt with
          | error why =>
            rw [hread] at hrun
            cases hrun
          | ok own =>
            rw [hread] at hrun
            obtain ⟨rfl, _⟩ := Prod.mk.inj (Except.ok.inj hrun)
            exact readHeld_readFrom hread

theorem stock_forgetHint (hsome : l.hint.isSome = true) (hsteady : Steady objs bound w l a w') :
    stock objs w' l.forgetHint < stock objs w l := by
  have hlater := hsteady.later
  unfold stock Loop.forgetHint
  simp only [hsome, Option.isSome_none, Bool.toNat_false, Bool.toNat_true]
  omega

/-- A run that could not be loaded and did not end the read used something up. -/
theorem refuse_moves (hsteady : Steady objs bound w l a w') {loaded : Loaded} {answered : Bool}
    {code : Errc} (hhinted : loaded.hinted = true → l.hint.isSome = true)
    (hheld : ∀ from_, loaded.heldFrom = some from_ →
      inFile bound a.writtenThen ≤ from_ ∧ from_ < bound.durable)
    (h : refuse a l loaded answered code = .goes l') :
    stock objs w' l' < stock objs w l ∧ l'.resume = l.resume := by
  have hlater := hsteady.later
  obtain ⟨h₁, h₂, h₃, h₄, h₅⟩ := hsteady.written
  unfold refuse at h
  split at h
  next hgone =>
    obtain rfl := Turned.goes.inj h
    cases hfrom : loaded.heldFrom with
    | none => simp [hfrom] at hgone
    | some from_ =>
      have hlt : from_ < a.writtenAfter := by simpa [hfrom] using hgone.2
      obtain ⟨hin, hdur⟩ := hheld from_ hfrom
      unfold inFile at hin
      have hgroups := hsteady.groups
      refine ⟨?_, rfl⟩
      unfold stock
      omega
  next =>
    split at h
    next hplace =>
      obtain rfl := Turned.goes.inj h
      exact ⟨stock_forgetHint (hhinted hplace.1) hsteady, rfl⟩
    next =>
      split at h
      next hreport =>
        obtain rfl := Turned.goes.inj h
        refine ⟨?_, rfl⟩
        unfold stock
        simp only [hreport.2.2, Bool.not_true, Bool.not_false, Bool.toNat_false, Bool.toNat_true]
        omega
      next =>
        split at h
        next => cases h
        next => cases h

/-- Reading on from a run changes nothing of what there is to use up. -/
theorem goOn_stock (hpast : ∀ block ∈ run.blocks, block.logical.end_ ≤ l.cursor) (start : RunStart)
    (until_ : Nat) : stock objs w (goOn l run start until_) = stock objs w l
      ∧ (goOn l run start until_).cursor = l.cursor := by
  unfold goOn
  split
  next =>
    split
    next => exact ⟨rfl, rfl⟩
    next last hlast =>
      have hcursor : max l.cursor last.logical.end_ = l.cursor :=
        max_eq_left (hpast last (List.mem_of_getLast? hlast))
      simp only [hcursor, and_true]
      rfl
  next => exact ⟨rfl, rfl⟩

/-- What is read on of a stretch is where its run ended. -/
theorem goOn_resume (hpast : ∀ block ∈ run.blocks, block.logical.end_ ≤ l.cursor)
    (hlast : l.cursor < noOffset) (hmore : run.end_ < until_) (start : RunStart) :
    ∃ next, (goOn l run start until_).resume = some next ∧ next.position = run.end_
      ∧ (goOn l run start until_).resumeEnd = until_ := by
  unfold goOn
  rw [if_pos hmore]
  split
  next => exact ⟨_, rfl, rfl, rfl⟩
  next last hget =>
    simp only
    have hle := hpast last (List.mem_of_getLast? hget)
    have hafter : run.after (run.blocks.length - 1)
        = some ⟨run.end_, last.logical.end_, last.physical.end_⟩ := by
      have hne : run.blocks ≠ [] := by
        intro hnil
        simp [hnil] at hget
      have hpos := List.length_pos_of_ne_nil hne
      have hat : run.blocks[run.blocks.length - 1]? = some last := by
        rw [← List.getLast?_eq_getElem?]
        exact hget
      unfold Run.after
      rw [List.getElem?_eq_none (by omega)]
      simp only [hat]
      rw [if_neg (by omega)]
    exact ⟨_, hafter, rfl, trivial⟩

/-- **Where a stretch is left when nothing of it was taken**: it is read on from where it stopped, or
    was read to its end. -/
inductive Leaves (objs : List (Obj codec history)) (bound : Bounds) (until_ : Nat) (start : RunStart)
    (answered : Bool) (l l' : Loop) : Prop
  | on (next : RunStart) : l'.resume = some next → l'.resumeEnd = until_ → next.position < until_ →
      (answered = false → start.position < next.position) →
      Leaves objs bound until_ start answered l l'
  | past (position : Nat) : l'.resume = none → until_ ≤ position → position < bound.durable →
      Behind objs position l.cursor → Leaves objs bound until_ start answered l l'

/-- What a turn that enters a run leaves: less to use up, or the same and the stretch further on. -/
def Enters (objs : List (Obj codec history)) (bound : Bounds) (w w' : World) (until_ : Nat)
    (start : RunStart) (answered : Bool) (l l' : Loop) : Prop :=
  (l'.resume.isSome = true → l'.resumeEnd ≤ bound.durable)
    ∧ (stock objs w' l' < stock objs w l
      ∨ (stock objs w' l' ≤ stock objs w l ∧ l'.cursor = l.cursor
        ∧ Leaves objs bound until_ start answered l l'))

variable (hstated : codec.Stated) (hwhole : Whole objs) {zeroes : Nat}

include hstated hwhole

theorem ReadFrom.advances {start : RunStart} {cursor : Nat} {run : Run}
    (hbehind : Behind objs start.position cursor)
    (h : ReadFrom codec history (fileOf objs zeroes) start run) : start.position < run.end_ := by
  obtain ⟨length, bytes, checked, hread, hcheck, rfl, hne⟩ := h
  obtain ⟨pre, post, hobjs, hposition, _⟩ := hbehind
  obtain ⟨mid, rest, _, hbegin, hshows, _⟩ :=
    checked_shows hstated hwhole hobjs hposition hread hcheck
  have hend := hshows.end_
  omega

theorem takeLoaded_moves (hexact : Exact objs bound request l) (hnone : l.resume = none)
    (hlast : l.cursor < noOffset) (hhonest : Honest objs request.from_) {loaded : Loaded}
    (hrun : (loaded.hinted = false ∧ Opens objs run l.cursor)
      ∨ (loaded.hinted = true ∧ ∃ place placed, l.hint = some place
        ∧ placedStart history place l.cursor = some placed
        ∧ ReadFrom codec history (fileOf objs zeroes) placed run))
    (hhinted : loaded.hinted = true → l.hint.isSome = true) {start : RunStart} {answered : Bool}
    (hown : answered = false → start.position < run.end_) (hsteady : Steady objs bound w l a w')
    {funded : Bool} {until_ : Nat}
    (h : takeLoaded config bound request a l loaded run funded (min until_ bound.durable)
      = .goes l') : Enters objs bound w w' (min until_ bound.durable) start answered l l' := by
  unfold takeLoaded at h
  split at h
  next hempty =>
    obtain rfl := Turned.goes.inj h
    refine ⟨?_, .inl (stock_forgetHint (hhinted hempty.1) hsteady)⟩
    show l.resume.isSome = true → _
    simp [hnone]
  next hblocks =>
    have hopens := loaded_opens hstated hwhole hexact hhonest hrun hblocks
    obtain ⟨taken, htook, _, hon⟩ := @take_spec codec history config bound request a run
      bound.durable (!loaded.alone && !funded) objs hwhole l hopens
    simp only at h
    generalize l.take config bound request a run bound.durable (!loaded.alone && !funded)
      = out at htook hon h
    obtain ⟨t, why⟩ := out
    cases why with
    | error code => cases h
    | ok step =>
      cases step with
      | limit => cases h
      | durable => cases h
      | visible => cases h
      | on =>
        simp only at h
        obtain ⟨hbehind, hpast, _⟩ := hon rfl
        split at h
        next => cases h
        next hend =>
          obtain rfl := Turned.goes.inj h
          generalize hmarked : ({ t with
            barren := if t.batches.length = l.batches.length then some loaded.start.position
              else t.barren } : Loop) = marked
          have hcursor : marked.cursor = t.cursor := by rw [← hmarked]
          have hsame : stock objs w' marked = stock objs w' t := by rw [← hmarked]; rfl
          have hresume : marked.resume = none := by
            rw [← hmarked]
            exact htook.same.1.trans hnone
          rw [← hcursor] at hpast
          obtain ⟨hstock, hat⟩ := @goOn_stock codec history objs marked w' run hpast loaded.start
            (min until_ bound.durable)
          have hused : stock objs w' t + taken.length ≤ stock objs w l := htook.stock hsteady
          refine ⟨?_, ?_⟩
          · intro hsome
            by_cases hmore : run.end_ < min until_ bound.durable
            · unfold goOn
              rw [if_pos hmore]
              split
              next => exact min_le_right _ _
              next => exact min_le_right _ _
            · unfold goOn at hsome
              rw [if_neg hmore, hresume] at hsome
              cases hsome
          · rw [hstock, hsame, hat, hcursor]
            by_cases htaken : taken = []
            · have hstays : t.cursor = l.cursor := (htook.none_ htaken).2.1
              refine .inr ⟨by omega, hstays, ?_⟩
              by_cases hmore : run.end_ < min until_ bound.durable
              · obtain ⟨next, hnext, hposition, hto⟩ := @goOn_resume marked run _ hpast
                  (by rw [hcursor]; omega) hmore loaded.start
                exact .on next hnext hto (by omega) (fun hno => by rw [hposition]; exact hown hno)
              · refine .past run.end_ ?_ (not_lt.mp hmore) (not_le.mp hend) (hstays ▸ hbehind)
                unfold goOn
                rw [if_neg hmore]
                exact hresume
            · have hpos := List.length_pos_of_ne_nil htaken
              exact .inl (by omega)

theorem enter_moves (hexact : Exact objs bound request l) (hnone : l.resume = none)
    (hlast : l.cursor < noOffset) (hhonest : Honest objs request.from_) {start : RunStart}
    (hbehind : Behind objs start.position l.cursor) {answered whole : Bool}
    (hfetch : whole = true → start.base ≤ l.cursor ∧ a.fetched.Tells objs start.base
      ∧ a.fetchedAgain.Tells objs start.base) (hwa : answered = false → whole = false)
    (hsteady : Steady objs bound w l a w') {end_ : Nat}
    (h : enter codec history (fileOf objs zeroes) config bound request a l start end_ answered whole
      = .goes l') :
    Enters objs bound w w' (min end_ bound.durable) start answered l l' := by
  unfold enter at h
  split at h
  next => cases h
  next hdurable =>
    split at h
    next => cases h
    next =>
      simp only at h
      obtain ⟨hhinted, hheld, hown⟩ := @loadRun_from codec history bound config a l
        (fileOf objs zeroes) start (not_le.mp hdurable) end_ answered whole _ rfl
      split at h
      next code _ =>
        obtain ⟨hless, hresume⟩ := refuse_moves hsteady hhinted hheld h
        refine ⟨?_, .inl hless⟩
        rw [hresume, hnone]
        simp
      next out hout =>
        obtain ⟨run, funded⟩ := out
        have hrun := loadRun_spec hstated hwhole hbehind hfetch rfl hout
        refine takeLoaded_moves hstated hwhole hexact hnone hlast hhonest hrun hhinted ?_ hsteady h
        intro hno
        exact ReadFrom.advances hstated hwhole hbehind (hown hno (hwa hno) run funded hout)

omit hstated

/-- What is left past a place that everything before it was returned of lies past the place. -/
theorem Behind.past {position cursor : Nat} (h : Behind objs position cursor)
    {first : Laid codec history} {rest : List (Laid codec history)}
    (hfront : beyond (blocksOf objs) cursor = first :: rest) :
    position < first.records.bytes.end_ :=
  @Behind.ends codec history objs ⟨position, none, 0, false⟩ hwhole position cursor h le_rfl first
    rest hfront

theorem fromRun_moves (hopens : Opens objs run l.cursor) (hsteady : Steady objs bound w l a w')
    {cached exhausted : Bool}
    (h : fromRun config bound request a run readable cached l = some (.stepped l' (.ok .on) exhausted)) :
    stock objs w' l' < stock objs w l ∧ l'.resume = l.resume := by
  unfold fromRun at h
  split at h
  next hseek =>
    obtain ⟨taken, htook, _, hon⟩ := @take_spec codec history config bound request a run readable
      cached objs hwhole l hopens
    simp only [Option.some.injEq, Found.stepped.injEq] at h
    obtain ⟨rfl, hstep, _⟩ := h
    have hpos := List.length_pos_of_ne_nil ((hon hstep).2.2 hseek)
    have hused := htook.stock hsteady
    exact ⟨by omega, htook.same.1⟩
  next =>
    split at h
    next => simp at h
    next => cases h

theorem fromMemory_moves (htells : a.Tells objs l.cursor) (hsteady : Steady objs bound w l a w')
    {exhausted : Bool}
    (h : fromMemory config bound request a l = .stepped l' (.ok .on) exhausted) :
    stock objs w' l' < stock objs w l ∧ l'.resume = l.resume := by
  unfold fromMemory at h
  cases hkept : a.kept.bind fun kept =>
      fromRun config bound request a kept.1 bound.durable (!kept.2) l with
  | some inKept =>
    simp only [hkept, Option.orElse_some, Option.getD_some] at h
    rw [h] at hkept
    obtain ⟨kept, hrun, hin⟩ := Option.bind_eq_some_iff.mp hkept
    obtain ⟨base, hbase, hfile⟩ := htells.kept kept.1 kept.2 hrun
    exact fromRun_moves hwhole (ofFile_opens hwhole hfile hbase) hsteady hin
  | none =>
    cases hfed : a.fed.bind fun fed =>
        fromRun config bound request a fed.1 (min bound.durable fed.2) true l with
    | some inFed =>
      simp only [hkept, hfed, Option.orElse_none, Option.getD_some] at h
      rw [h] at hfed
      obtain ⟨fed, hrun, hin⟩ := Option.bind_eq_some_iff.mp hfed
      obtain ⟨base, hbase, hfile⟩ := htells.fed fed.1 fed.2 hrun
      exact fromRun_moves hwhole (ofFile_opens hwhole hfile hbase) hsteady hin
    | none => simp [hkept, hfed] at h

include hstated

theorem locate_moves (hexact : Exact objs bound request l) (hresume : l.resume = none)
    (hlast : l.cursor < noOffset) (hhonest : Honest objs request.from_)
    (htells : a.Tells objs l.cursor) (hsteady : Steady objs bound w l a w')
    (h : locate codec history (fileOf objs zeroes) config bound request a l = .goes l') :
    (l'.resume.isSome = true → l'.resumeEnd ≤ bound.durable)
      ∧ (stock objs w' l' < stock objs w l
        ∨ (stock objs w' l' ≤ stock objs w l
          ∧ stretch objs bound l' < stretch objs bound l)) := by
  unfold locate at h
  split at h
  next => cases h
  next =>
  split at h
  next =>
    split at h
    next => cases h
    next => cases h
  next => cases h
  next base position end_ hsome =>
  obtain ⟨hle, hanchor, hfetched, hagain⟩ := htells.located base position end_ hsome
  split at h
  next => cases h
  next start hstart =>
  obtain ⟨hposition, hbase⟩ := segmentRunAt_eq hstart
  have henters := enter_moves hstated hwhole hexact hresume hlast hhonest
    (hposition ▸ hanchor.behind hwhole hle) (fun _ => hbase ▸ ⟨hle, hfetched, hagain⟩) (by simp)
    hsteady h
  obtain ⟨hto, hless | ⟨hused, hcursor, hleaves⟩⟩ := henters
  · exact ⟨hto, .inl hless⟩
  have hholds := hsteady.located base position end_ hsome
  refine ⟨hto, .inr ⟨hused, ?_⟩⟩
  cases hleaves with
  | on next hnext hsameEnd hbefore _ =>
    have hfresh : stale objs bound l' = false := by
      unfold stale
      rw [hsameEnd, hcursor]
      rcases hholds with hdurable | ⟨first, rest, hfront, hin⟩
      · rw [min_eq_right hdurable]
        simp
      · by_cases hshort : end_ < bound.durable
        · rw [hfront, min_eq_left hshort.le]
          simp [hin]
        · rw [min_eq_right (not_lt.mp hshort)]
          simp
    unfold stretch
    simp only [hnext, hresume, hfresh, hsameEnd]
    have hmin := min_le_right end_ bound.durable
    rw [if_neg Bool.false_ne_true]
    omega
  | past reached hnext hreached hbelow hbehind =>
    rcases hholds with hdurable | ⟨first, rest, hfront, hin⟩
    · rw [min_eq_right hdurable] at hreached
      omega
    · have hpast := @Behind.past codec history objs hwhole reached l.cursor hbehind first
        rest hfront
      omega

/-- **A turn that goes on uses something up, or goes further in its stretch.** -/
theorem turn_moves (hexact : Exact objs bound request l) (hhonest : Honest objs request.from_)
    (hvisible : bound.visible ≤ noOffset) (hends : l.resume.isSome = true → l.resumeEnd ≤ bound.durable)
    (htells : a.Tells objs l.cursor) (hsteady : Steady objs bound w l a w')
    (h : turn codec history (fileOf objs zeroes) config bound request a l = .goes l') :
    (l'.resume.isSome = true → l'.resumeEnd ≤ bound.durable)
      ∧ (stock objs w' l' < stock objs w l
        ∨ (stock objs w' l' ≤ stock objs w l
          ∧ stretch objs bound l' < stretch objs bound l)) := by
  unfold turn at h
  split at h
  next => cases h
  next =>
  split at h
  next => cases h
  next =>
  split at h
  next => cases h
  next =>
  split at h
  next => cases h
  next =>
  split at h
  next => cases h
  next hseen =>
  split at h
  next => cases h
  next =>
  have hlast : l.cursor < noOffset := by omega
  split at h
  next start hresume =>
    have hnone : Exact objs bound request { l with resume := none } :=
      { hexact with resume := by simp }
    have hsteady' : Steady objs bound w { l with resume := none } a w' :=
      ⟨hsteady.written, hsteady.groups, hsteady.caughtUp, hsteady.located⟩
    have hend : min l.resumeEnd bound.durable = l.resumeEnd :=
      min_eq_left (hends (by rw [hresume]; rfl))
    have henters := enter_moves hstated hwhole hnone rfl hlast hhonest
      (hexact.resume start hresume) (by simp) (fun _ => rfl) hsteady' h
    rw [hend] at henters
    obtain ⟨hto, hless | ⟨hle, hcursor, hleaves⟩⟩ := henters
    · exact ⟨hto, .inl hless⟩
    refine ⟨hto, .inr ⟨hle, ?_⟩⟩
    have hcursor : l'.cursor = l.cursor := hcursor
    cases hleaves with
    | on next hnext hsameEnd hbefore hfurther =>
      have hstale : stale objs bound l' = stale objs bound l := by
        unfold stale
        rw [hsameEnd, hcursor]
      have hfurther := hfurther rfl
      unfold stretch
      simp only [hnext, hresume, hstale, hsameEnd]
      omega
    | past position hnext hreached hbelow hbehind =>
      have hstale : stale objs bound l = true := by
        unfold stale
        have hshort : l.resumeEnd < bound.durable := by omega
        simp only [hshort, decide_true, Bool.true_and, Bool.not_eq_true']
        cases hfront : beyond (blocksOf objs) l.cursor with
        | nil => rfl
        | cons first rest =>
          have hpast := @Behind.past codec history objs hwhole position l.cursor hbehind first
            rest hfront
          simp only [List.head?_cons, Option.any_some, decide_eq_false_iff_not]
          omega
      unfold stretch
      simp only [hnext, hresume, hstale]
      simp
      omega
  next hresume =>
  split at h
  next => cases h
  next stepped why exhausted hfound =>
    split at h
    next => cases h
    next =>
      split at h
      next => cases h
      next =>
        obtain rfl := Turned.goes.inj h
        obtain ⟨hless, hsame⟩ := fromMemory_moves hwhole htells hsteady hfound
        refine ⟨?_, .inl hless⟩
        rw [hsame, hresume]
        simp
    next step _ =>
      cases step <;> cases h
  next =>
    split at h
    next hcaught =>
      obtain rfl := Turned.goes.inj h
      refine ⟨hends, .inl ?_⟩
      have hfewer := hsteady.caughtUp hcaught
      obtain ⟨h₁, h₂, h₃, h₄, h₅⟩ := hsteady.written
      unfold stock
      omega
    next => exact locate_moves hstated hwhole hexact hresume hlast hhonest htells hsteady h

end Moves

/-! ## Every read ends -/

/-- The answers of a read, each true of the segment and of the session's bounds, and consistent with
    those before. -/
def Lasts (objs : List (Obj codec history)) (zeroes : Nat) (config : Config) (bound : Bounds)
    (request : Request) : World → List Answers → Loop → Prop
  | _, [], _ => True
  | w, a :: more, l => a.Tells objs l.cursor ∧ a.Bears objs bound l.cursor
      ∧ ∃ w', Steady objs bound w l a w'
        ∧ ∀ l', turn codec history (fileOf objs zeroes) config bound request a l = .goes l' →
          Lasts objs zeroes config bound request w' more l'

/-- More turns than a read takes. -/
def turns (objs : List (Obj codec history)) (bound : Bounds) (w : World) (l : Loop) : Nat :=
  stock objs w l * (2 * bound.durable + 4) + stretch objs bound l

section Reads

variable {objs : List (Obj codec history)} {bound : Bounds} {request : Request} {config : Config}
  {zeroes : Nat}

theorem Lasts.along {answers : List Answers} :
    ∀ {w : World} {l : Loop}, Lasts objs zeroes config bound request w answers l →
      Along codec history (fileOf objs zeroes) config bound request
        (fun l a => a.Tells objs l.cursor ∧ (True → a.Bears objs bound l.cursor)) answers l := by
  induction answers with
  | nil =>
    intro w l _
    trivial
  | cons a more ih =>
    intro w l ⟨htells, hbears, w', _, hmore⟩
    exact ⟨⟨htells, fun _ => hbears⟩, fun l' hturn => ih (hmore l' hturn)⟩

theorem stretch_le {l : Loop} (h : l.resume.isSome = true → l.resumeEnd ≤ bound.durable) :
    stretch objs bound l ≤ 2 * bound.durable + 3 := by
  unfold stretch
  split
  next => omega
  next start hresume =>
    have hle := h (by rw [hresume]; rfl)
    split <;> omega

variable (hstated : codec.Stated) (hwhole : Whole objs)

include hstated hwhole

/-- **A read ends**, by induction on the answers: each turn that goes on leaves fewer to come. -/
theorem readLoop_ends (hhonest : Honest objs request.from_) (hvisible : bound.visible ≤ noOffset)
    {answers : List Answers} :
    ∀ {w : World} {l : Loop}, Exact objs bound request l →
      (l.resume.isSome = true → l.resumeEnd ≤ bound.durable) →
      Lasts objs zeroes config bound request w answers l →
      turns objs bound w l < answers.length →
      (readLoop codec history (fileOf objs zeroes) config bound request answers l).isSome = true := by
  induction answers with
  | nil =>
    intro w l _ _ _ hlength
    simp at hlength
  | cons a more ih =>
    intro w l hexact hends ⟨htells, hbears, w', hsteady, hmore⟩ hlength
    unfold readLoop
    cases hturn : turn codec history (fileOf objs zeroes) config bound request a l with
    | ends l' why => rfl
    | goes l' =>
      have hfine := @turn_fine codec history objs bound request config a l True hstated hwhole zeroes
        hexact hhonest htells (fun _ => hbears)
      rw [hturn] at hfine
      obtain ⟨hends', hmoves⟩ := turn_moves hstated hwhole hexact hhonest hvisible hends htells
        hsteady hturn
      refine ih hfine hends' (hmore l' hturn) ?_
      have hfewer : turns objs bound w' l' < turns objs bound w l := by
        have hstretch := @stretch_le codec history objs bound l' hends'
        unfold turns
        rcases hmoves with hless | ⟨hle, hfurther⟩
        · have hmul := Nat.mul_le_mul_right (2 * bound.durable + 4) (Nat.succ_le_of_lt hless)
          rw [Nat.succ_mul] at hmul
          omega
        · have hmul := Nat.mul_le_mul_right (2 * bound.durable + 4) hle
          omega
      rw [List.length_cons] at hlength
      omega

end Reads

end KwaqueStorage.SegmentRead
