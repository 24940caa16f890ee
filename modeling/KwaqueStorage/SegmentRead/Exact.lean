import KwaqueStorage.SegmentRead.Take

/-!
# What a read returns

The invariant of the loop (`Exact`): what the read has taken are the first blocks past the offset it
was asked for, and those past its cursor are the ones it has not. Every source keeps it that is true
of the segment (`Tells`): a run of the cache or of the feed is a run of the file, the index names a
block where it is, and the device and the writer's memory hold what was appended. A place that was
handed in is trusted only as far as the block found there is the one asked for, so it keeps it too,
unless the bytes at a place where no object begins read as that block (`Misleads`).
-/

namespace KwaqueStorage.SegmentRead

open Scan Extent SegmentRun

variable {codec : RunCodec} {history : History}

/-! ## What is true of a segment -/

/-- The file of a segment: its objects, and zeroes past them. -/
def fileOf (objs : List (Obj codec history)) (zeroes : Nat) : File :=
  ⟨history.dataStart, flat objs ++ List.replicate zeroes 0⟩

/-- An anchor of the index: a block's first offset, and where the block begins. -/
def Anchors (objs : List (Obj codec history)) (base position : Nat) : Prop :=
  ∃ pre laid post, objs = pre ++ .block laid :: post ∧ laid.records.logical.begin_ = base
    ∧ position = history.dataStart + (flat pre).length

/-- What the cache answers to a fetch is a run of the file with the base that was asked for. -/
structure Fetching.Tells (objs : List (Obj codec history)) (base : Nat) (met : Fetching) : Prop where
  hit : ∀ run funded, met.hit = some (run, funded) → OfFile objs base run
  joined : ∀ run funded, met.joined = some (.ok (run, funded)) → OfFile objs base run

/-- **The sources are true of the segment.** -/
structure Answers.Tells (objs : List (Obj codec history)) (cursor : Nat) (a : Answers) : Prop where
  kept : ∀ run funded, a.kept = some (run, funded) → ∃ base ≤ cursor, OfFile objs base run
  fed : ∀ run readable, a.fed = some (run, readable) → ∃ base ≤ cursor, OfFile objs base run
  located : ∀ base position end_, a.located = .ok (some (base, position, end_)) →
    base ≤ cursor ∧ Anchors objs base position
      ∧ a.fetched.Tells objs base ∧ a.fetchedAgain.Tells objs base

/-- **A place misleads a read**: the bytes there read as a block of the offset asked for. -/
def Misleads (codec : RunCodec) (history : History) (file : File) (place asked : Nat) : Prop :=
  ∃ start length bytes checked, placedStart history place asked = some start
    ∧ file.read place length = .ok bytes
    ∧ checkSegmentRun codec history start false bytes = .ok checked ∧ checked.run.blocks ≠ []

/-- A place that was handed in is where an object begins, or does not mislead. -/
def Honest (objs : List (Obj codec history)) (from_ : Position) : Prop :=
  ∀ place, from_.block = some place → Begins objs place
    ∨ ∀ zeroes, ¬ Misleads codec history (fileOf objs zeroes) place from_.offset

/-! ## Runs that may be read -/

section Opens

variable {objs : List (Obj codec history)} {run : Run} {cursor base : Nat}

/-- A run of the file that begins at or before an offset may be read there. -/
theorem ofFile_opens (hwhole : Whole objs) (h : OfFile objs base run) (hle : base ≤ cursor) :
    Opens objs run cursor := by
  obtain ⟨mid, pre, post, first, hobjs, hhead, hbase, hbegin, hfilled⟩ := h
  have hcont := hwhole.at_ hobjs
  rw [← hbegin] at hcont
  refine ⟨pre, mid, post, hobjs, hbegin, hfilled.shows hcont, ?_⟩
  intro laid hmem
  have hfirst : first ∈ blocksOf (mid ++ post) := by
    obtain ⟨rest, hrest⟩ : ∃ rest, mid ++ post = .block first :: rest := by
      cases hmp : mid ++ post with
      | nil => simp [hmp] at hhead
      | cons o rest =>
        rw [hmp] at hhead
        exact ⟨rest, by rw [Option.some.inj hhead]⟩
    rw [hrest]
    exact List.mem_cons_self
  have hordered := (continues_rising hwhole).1.ordered
  rw [hobjs, blocksOf_append, List.pairwise_append] at hordered
  have := hordered.2.2 laid hmem first hfirst
  omega

theorem Anchors.behind (hwhole : Whole objs) {position : Nat} (h : Anchors objs base position)
    (hle : base ≤ cursor) : Behind objs position cursor := by
  obtain ⟨pre, laid, post, hobjs, hbase, hposition⟩ := h
  refine ⟨pre, .block laid :: post, hobjs, hposition, ?_⟩
  intro other hmem
  have hordered := (continues_rising hwhole).1.ordered
  rw [hobjs, blocksOf_append, List.pairwise_append] at hordered
  have := hordered.2.2 other hmem laid List.mem_cons_self
  omega

/-- What is read of the file from a place on is what follows there. -/
theorem read_front {zeroes position length : Nat} {pre post : List (Obj codec history)}
    (hobjs : objs = pre ++ post) (hposition : position = history.dataStart + (flat pre).length)
    {bytes : List UInt8} (h : (fileOf objs zeroes).read position length = .ok bytes) :
    bytes <+: flat post ++ List.replicate zeroes 0 := by
  unfold File.read at h
  split at h
  next => cases h
  next =>
    cases h
    unfold bytesAt fileOf
    simp only
    rw [hposition, Nat.add_sub_cancel_left, hobjs, flat_append, List.append_assoc, List.drop_left]
    exact List.take_prefix _ _

/-- **A check of what is read from where an object begins** makes a run of the file from there. -/
theorem checked_shows (hstated : codec.Stated) (hwhole : Whole objs) {zeroes length : Nat}
    {pre post : List (Obj codec history)} (hobjs : objs = pre ++ post) {start : RunStart}
    (hposition : start.position = history.dataStart + (flat pre).length) {whole : Bool}
    {bytes : List UInt8} (hread : (fileOf objs zeroes).read start.position length = .ok bytes)
    {checked : CheckedRun}
    (h : checkSegmentRun codec history start whole bytes = .ok checked) :
    ∃ mid rest, objs = pre ++ (mid ++ rest)
      ∧ checked.run.begin_ = history.dataStart + (flat pre).length ∧ Shows checked.run mid
      ∧ ∀ first, (blocksOf mid).head? = some first →
        first.records.logical.begin_ = start.base := by
  have hcont : Continues (logicalEnd history.logicalOrigin pre)
      (physicalEnd history.physicalOrigin pre) start.position post := by
    rw [hposition]
    exact hwhole.at_ (by rw [hobjs, List.append_nil])
  obtain ⟨hbegin, mid, rest, rfl, hshows, hfirst⟩ := checkSegmentRun_prefix hstated
    (by simp) (read_front hobjs hposition hread) hcont h
  exact ⟨mid, rest, hobjs, hbegin.trans hposition, hshows, hfirst⟩

/-- A run of a private read: a check of bytes of the file from a start on, which took something. -/
def ReadFrom (codec : RunCodec) (history : History) (file : File) (start : RunStart) (run : Run) :
    Prop :=
  ∃ length bytes checked, file.read start.position length = .ok bytes
    ∧ checkSegmentRun codec history start false bytes = .ok checked ∧ run = checked.run
    ∧ run.end_ ≠ start.position

theorem attempts_readFrom {file : File} {start : RunStart} {end_ : Nat} {met : Nat → Attempt} :
    ∀ {left wanted : Nat}, attempts codec history file start end_ met left wanted = .ok run →
      ReadFrom codec history file start run := by
  intro left
  induction left with
  | zero =>
    intro wanted h
    cases h
  | succ left ih =>
    intro wanted h
    unfold attempts at h
    split at h
    next => cases h
    next =>
      split at h
      next => cases h
      next =>
        cases hread : file.read start.position wanted with
        | error why => simp [hread, Except.bind] at h
        | ok bytes =>
          simp only [hread, Except.bind] at h
          cases hcheck : checkSegmentRun codec history start false bytes with
          | error why => simp [hcheck] at h
          | ok checked =>
            simp only [hcheck] at h
            split at h
            next =>
              split at h
              next => cases h
              next => exact ih h
            next hend =>
              split at h
              next => cases h
              next =>
                cases h
                exact ⟨wanted, bytes, checked, hread, hcheck, rfl, hend⟩

theorem readAlone_readFrom {file : File} {config : Config} {start : RunStart} {end_ bound : Nat}
    {turned : Option Errc} {met : Nat → Attempt}
    (h : readAlone codec history file config start end_ bound turned met = .ok run) :
    ReadFrom codec history file start run := by
  unfold readAlone at h
  split at h
  next => cases h
  next =>
    split at h
    next => cases h
    next => exact attempts_readFrom h

theorem readHeld_readFrom {file : File} {config : Config} {start : RunStart} {end_ : Nat}
    {turned : Option Errc} {met : Nat → Attempt}
    (h : readHeld codec history file config start end_ turned met = .ok run) :
    ReadFrom codec history file start run := by
  unfold readHeld at h
  split at h
  next => cases h
  next =>
    split at h
    next => cases h
    next => exact attempts_readFrom h

section Load

variable (hstated : codec.Stated) (hwhole : Whole objs) {zeroes : Nat} {start : RunStart}
  (hbehind : Behind objs start.position cursor)

include hstated hwhole hbehind

theorem ReadFrom.opens (h : ReadFrom codec history (fileOf objs zeroes) start run) :
    Opens objs run cursor := by
  obtain ⟨length, bytes, checked, hread, hcheck, rfl, _⟩ := h
  obtain ⟨pre, post, hobjs, hposition, hpast⟩ := hbehind
  obtain ⟨mid, rest, hobjs', hbegin, hshows, _⟩ :=
    checked_shows hstated hwhole hobjs hposition hread hcheck
  exact ⟨pre, mid, rest, hobjs', hbegin, hshows, hpast⟩

theorem load_opens {end_ : Nat} {device : Option Errc}
    (h : load codec history (fileOf objs zeroes) start end_ device = .ok run) :
    Opens objs run cursor := by
  unfold load at h
  split at h
  next => cases h
  next =>
    cases hread : (fileOf objs zeroes).read start.position (end_ - start.position) with
    | error why => simp [hread, Except.bind] at h
    | ok bytes =>
      simp only [hread, Except.bind] at h
      cases hcheck : checkSegmentRun codec history start true bytes with
      | error why => simp [hcheck, Except.map] at h
      | ok checked =>
        simp only [hcheck, Except.map, Except.ok.injEq] at h
        obtain rfl := h
        obtain ⟨pre, post, hobjs, hposition, hpast⟩ := hbehind
        obtain ⟨mid, rest, hobjs', hbegin, hshows, _⟩ :=
          checked_shows hstated hwhole hobjs hposition hread hcheck
        exact ⟨pre, mid, rest, hobjs', hbegin, hshows, hpast⟩

/-- **What `fetch` answers may be read**, whether the cache kept it or it was loaded now. -/
theorem fetch_opens {config : Config} {end_ bound : Nat} {lends : Bool} {met : Fetching}
    (htells : met.Tells objs start.base) (hle : start.base ≤ cursor) {funded : Bool}
    (h : fetch codec history (fileOf objs zeroes) config start end_ bound lends met
      = .ok (run, funded)) : Opens objs run cursor := by
  unfold fetch at h
  split at h
  next => cases h
  next =>
    split at h
    next hit hhit =>
      cases h
      exact ofFile_opens hwhole (htells.hit run funded hhit) hle
    next =>
      split at h
      next => cases h
      next =>
        split at h
        next => cases h
        next =>
          split at h
          next => cases h
          next =>
            split at h
            next joined hjoined =>
              obtain rfl := h
              exact ofFile_opens hwhole (htells.joined run funded hjoined) hle
            next =>
              split at h
              next => cases h
              next =>
                simp only at h
                split at h
                next own hown =>
                  cases h
                  split at hown
                  next => cases hown
                  next => exact load_opens hstated hwhole hbehind hown
                next =>
                  split at h
                  next =>
                    cases hload : load codec history (fileOf objs zeroes) start end_
                        met.deviceAgain with
                    | error why => simp [hload, Except.map] at h
                    | ok again =>
                      simp only [hload, Except.map, Except.ok.injEq, Prod.mk.injEq] at h
                      obtain ⟨rfl, rfl⟩ := h
                      exact load_opens hstated hwhole hbehind hload
                  next => cases h

end Load

/-- **A place that was handed in** leads to a run that may be read at the offset asked for, or to no
    block. -/
theorem placed_opens (hstated : codec.Stated) (hwhole : Whole objs) {zeroes place : Nat}
    {start : RunStart} (hstart : placedStart history place cursor = some start)
    (hhonest : Begins objs place ∨ ¬ Misleads codec history (fileOf objs zeroes) place cursor)
    (h : ReadFrom codec history (fileOf objs zeroes) start run) (hblocks : run.blocks ≠ []) :
    Opens objs run cursor := by
  have hat : start.position = place ∧ start.base = cursor := by
    unfold placedStart at hstart
    simp only at hstart
    obtain ⟨_, ⟨⟩⟩ := Option.ite_none_left_eq_some.mp hstart
    exact ⟨rfl, rfl⟩
  obtain ⟨length, bytes, checked, hread, hcheck, rfl, _⟩ := h
  rcases hhonest with ⟨pre, post, hobjs, hplace⟩ | hnot
  · obtain ⟨mid, rest, hobjs', hbegin, hshows, hfirst⟩ :=
      checked_shows hstated hwhole hobjs (hat.1.trans hplace) hread hcheck
    refine ⟨pre, mid, rest, hobjs', hbegin, hshows, ?_⟩
    -- the first block is the one that begins at the offset, so what lies before it ends there
    obtain ⟨first, more, hmid⟩ : ∃ first more, blocksOf mid = first :: more := by
      apply List.exists_cons_of_ne_nil
      intro hnil
      have htable := hshows.table
      rw [hnil] at htable
      exact hblocks (by simpa using htable)
    have hbase := hfirst first (by rw [hmid]; rfl)
    intro laid hmem
    have hordered := (continues_rising hwhole).1.ordered
    rw [hobjs', blocksOf_append, blocksOf_append, List.pairwise_append] at hordered
    have := hordered.2.2 laid hmem first (by simp [hmid])
    omega
  · refine absurd ⟨start, length, bytes, checked, hstart, ?_, hcheck, hblocks⟩ hnot
    rw [← hat.1]
    exact hread

end Opens

/-! ## The invariant -/

/-- **What a read has returned and what it has not.** -/
structure Exact (objs : List (Obj codec history)) (bound : Bounds) (request : Request) (l : Loop) :
    Prop where
  taken : ∃ taken, beyond (blocksOf objs) request.from_.offset
      = taken ++ beyond (blocksOf objs) l.cursor
    ∧ l.batches = taken.map batchOf
    ∧ (∀ laid ∈ taken, laid.records.logical.end_ ≤ bound.visible
      ∧ laid.records.bytes.end_ ≤ bound.durable)
    ∧ l.cursor = endOf request.from_.offset taken
  next : l.next.offset = l.cursor
  /-- A place that is handed back begins an object, or is the one that was handed in. -/
  place : ∀ place, l.next.block = some place → Begins objs place
    ∨ (request.from_.block = some place ∧ l.cursor = request.from_.offset)
  /-- A place is followed only before anything is taken. -/
  hint : ∀ place, l.hint = some place →
    request.from_.block = some place ∧ l.cursor = request.from_.offset
  resume : ∀ start, l.resume = some start → Behind objs start.position l.cursor

/-- Why a read ended, with the blocks it has not returned. -/
def Ended (bound : Bounds) (request : Request) (bears : Prop) (l : Loop)
    (left : List (Laid codec history)) : Option Stop → Prop
  | none => bears → ∀ first rest, left = first :: rest → bound.durable < first.records.bytes.end_
  | some .limit => l.batches ≠ []
      ∨ (request.atLeastOne = false ∧ ∃ first rest, left = first :: rest
        ∧ request.limit < first.batch.length ∧ l.wanted = first.batch.length)
  | some .endOfSegment => ∃ records, bound.sealed_ = some records ∧ records ≤ l.cursor
  | some .notYetVisible => bound.visible ≤ l.cursor
      ∨ ∃ first rest, left = first :: rest ∧ bound.visible < first.records.logical.end_
  | some .shortOfVisibility => bound.shortOfVisibility = true
      ∧ (bound.visible ≤ l.cursor
        ∨ (∃ first rest, left = first :: rest ∧ bound.visible < first.records.logical.end_)
        ∨ ∃ records, bound.sealed_ = some records ∧ records ≤ l.cursor)
  | some .belowStart => False
  | some .cancelled => True
  | some (.failed _) => True

/-- The sources bear the session's bounds out: the fed runs may be read as far as its durable bound
    goes, and an index without an anchor has nothing below it. -/
structure Answers.Bears (objs : List (Obj codec history)) (bound : Bounds) (cursor : Nat)
    (a : Answers) : Prop where
  fed : ∀ run readable, a.fed = some (run, readable) → bound.durable ≤ readable
  located : a.located = .ok none → ∀ first rest, beyond (blocksOf objs) cursor = first :: rest →
    bound.durable < first.records.bytes.end_

/-- What a turn keeps. -/
def Fine (objs : List (Obj codec history)) (bound : Bounds) (request : Request) (bears : Prop) :
    Turned → Prop
  | .goes l => Exact objs bound request l
  | .ends l why => Exact objs bound request l
      ∧ Ended bound request bears l (beyond (blocksOf objs) l.cursor) why

section Turn

variable {objs : List (Obj codec history)} {bound : Bounds} {request : Request} {config : Config}
  {answers : Answers} {l l' : Loop} {run : Run} {readable : Nat} {cached : Bool} {bears : Prop}

/-- What is taken from a run that may be read is what was not returned yet. -/
theorem Exact.took (h : Exact objs bound request l) {taken : List (Laid codec history)}
    (htook : Took (blocksOf objs) bound readable (Begins objs) l l' taken) (hreadable : readable ≤ bound.durable) :
    Exact objs bound request l' := by
  obtain ⟨before, hfront, hbatches, hwithin, hcursor⟩ := h.taken
  refine ⟨⟨before ++ taken, ?_, ?_, ?_, ?_⟩, ?_, ?_, ?_, ?_⟩
  · rw [hfront, htook.front, List.append_assoc]
  · rw [htook.batches, hbatches, List.map_append]
  · intro laid hmem
    rcases List.mem_append.mp hmem with hmem | hmem
    · exact hwithin laid hmem
    · exact ⟨(htook.within laid hmem).1, (htook.within laid hmem).2.trans hreadable⟩
  · rw [htook.last, hcursor, endOf_append]
  · by_cases hnone : taken = []
    · obtain ⟨hnext, hcursor, _⟩ := htook.none_ hnone
      rw [hnext, hcursor]
      exact h.next
    · exact (htook.some_ hnone).1
  · intro place hplace
    by_cases hnone : taken = []
    · obtain ⟨hnext, hcursor, _⟩ := htook.none_ hnone
      rw [hcursor]
      exact h.place place (hnext ▸ hplace)
    · exact .inl ((htook.some_ hnone).2.2 place hplace)
  · intro place hplace
    by_cases hnone : taken = []
    · obtain ⟨_, hcursor, hhint⟩ := htook.none_ hnone
      rw [hcursor]
      exact h.hint place (hhint ▸ hplace)
    · rw [(htook.some_ hnone).2.1] at hplace
      cases hplace
  · intro start hstart
    rw [htook.same.1] at hstart
    exact (h.resume start hstart).mono htook.passed.1

/-- Past a place that the durable bound does not reach nothing may be read. -/
theorem Behind.ends (hwhole : Whole objs) {position cursor : Nat}
    (h : Behind objs position cursor) (hdurable : bound.durable ≤ position)
    {first : Laid codec history} {rest : List (Laid codec history)}
    (hfront : beyond (blocksOf objs) cursor = first :: rest) :
    bound.durable < first.records.bytes.end_ := by
  obtain ⟨pre, post, hobjs, hposition, hpast⟩ := h
  have hmem : first ∈ blocksOf post := by
    rw [hobjs, blocksOf_append, beyond_append hpast] at hfront
    apply (List.dropWhile_sublist _).subset
    rw [show (blocksOf post).dropWhile _ = _ from hfront]
    exact List.mem_cons_self
  have hcont := hwhole.at_ (show objs = pre ++ (post ++ []) by rw [hobjs, List.append_nil])
  have h₁ := (continues_within hcont first hmem).1
  have h₂ := first.span
  have h₃ := (Obj.block first).bytes_pos
  simp only [Obj.bytes] at h₃
  omega

/-- A run with nothing past the cursor is behind it. -/
theorem Opens.behind {cursor : Nat} (h : Opens objs run cursor)
    (hnone : run.blocks.length ≤ run.seek cursor) : Behind objs run.end_ cursor := by
  obtain ⟨pre, mid, post, hobjs, hbegin, hshows, hpast⟩ := h
  obtain ⟨_, hbeyond, hlength⟩ := shows_seek hshows cursor
  rw [List.drop_eq_nil_of_le (by omega)] at hbeyond
  refine ⟨pre ++ mid, post, by rw [hobjs, List.append_assoc], ?_, ?_⟩
  · rw [hshows.end_, hbegin, flat_append, List.length_append, Nat.add_assoc]
  · intro laid hmem
    rw [blocksOf_append] at hmem
    rcases List.mem_append.mp hmem with hmem | hmem
    · exact hpast laid hmem
    · have hsplit := List.takeWhile_append_dropWhile (l := blocksOf mid)
        (p := fun x : Laid codec history => decide (x.records.logical.end_ ≤ cursor))
      rw [show (blocksOf mid).dropWhile _ = [] from hbeyond, List.append_nil] at hsplit
      rw [← hsplit] at hmem
      simpa using List.all_eq_true.mp List.all_takeWhile laid hmem

/-- Where a run was left for a reason. -/
theorem stopped_fine (h : Exact objs bound request l) {why : Step} (hwhy : why ≠ .on)
    (hreadable : bears → bound.durable ≤ readable)
    (hleft : Left bound request readable l (beyond (blocksOf objs) l.cursor) (.ok why)) :
    Fine objs bound request bears (stopped bound l why) := by
  cases why with
  | on => exact absurd rfl hwhy
  | limit => exact ⟨h, hleft⟩
  | durable =>
    refine ⟨h, ?_⟩
    intro hbears first rest hfront
    obtain ⟨first', rest', hfront', hlt⟩ := hleft
    rw [hfront] at hfront'
    obtain ⟨rfl, rfl⟩ := List.cons.inj hfront'
    have := hreadable hbears
    omega
  | visible =>
    refine ⟨h, ?_⟩
    unfold unseen
    split
    next hshort => exact ⟨hshort, .inr (.inl hleft)⟩
    next => exact .inr hleft

/-- What a failure says is no promise. -/
theorem failure_fine (h : Exact objs bound request l) (why : Errc) :
    Fine objs bound request bears (.ends l (some (failure answers why))) := by
  refine ⟨h, ?_⟩
  unfold failure
  split
  next => trivial
  next => trivial

/-- A run in memory. -/
def FoundFine (objs : List (Obj codec history)) (bound : Bounds) (request : Request) (bears : Prop)
    (l : Loop) : Found → Prop
  | .over => bears → ∀ first rest, beyond (blocksOf objs) l.cursor = first :: rest →
      bound.durable < first.records.bytes.end_
  | .nothing => True
  | .stepped l' why exhausted => Exact objs bound request l'
      ∧ (∃ readable, (bears → bound.durable ≤ readable)
        ∧ Left bound request readable l' (beyond (blocksOf objs) l'.cursor) why)
      ∧ (why = .ok .on → exhausted = true → ∀ first rest,
        beyond (blocksOf objs) l'.cursor = first :: rest →
        bound.durable < first.records.bytes.end_)

theorem fromRun_fine (hwhole : Whole objs) (h : Exact objs bound request l)
    (hopens : Opens objs run l.cursor) (hle : readable ≤ bound.durable)
    (hreadable : bears → bound.durable ≤ readable) {found : Found}
    (hfound : fromRun config bound request answers run readable cached l = some found) :
    FoundFine objs bound request bears l found := by
  unfold fromRun at hfound
  split at hfound
  next =>
    cases hfound
    obtain ⟨taken, htook, hleft, hon⟩ := @take_spec codec history config bound request answers run
      readable cached objs hwhole l hopens
    refine ⟨h.took htook hle, ⟨readable, hreadable, hleft⟩, ?_⟩
    intro hstep hexhausted first rest hfront
    exact (hon hstep).1.ends hwhole (by simpa using hexhausted) hfront
  next hnone =>
    obtain ⟨hend, ⟨⟩⟩ := Option.ite_none_right_eq_some.mp hfound
    intro _ first rest hfront
    exact (hopens.behind (not_lt.mp hnone)).ends hwhole hend hfront

/-- **What the cache and the feed hold.** -/
theorem fromMemory_fine (hwhole : Whole objs) (h : Exact objs bound request l)
    (htells : answers.Tells objs l.cursor) (hbears : bears → answers.Bears objs bound l.cursor) :
    FoundFine objs bound request bears l (fromMemory config bound request answers l) := by
  obtain ⟨found, hfound⟩ : ∃ found, fromMemory config bound request answers l = found := ⟨_, rfl⟩
  rw [hfound]
  unfold fromMemory at hfound
  cases hkept : answers.kept.bind fun kept =>
      fromRun config bound request answers kept.1 bound.durable (!kept.2) l with
  | some inKept =>
    simp only [hkept, Option.orElse_some, Option.getD_some] at hfound
    obtain rfl := hfound
    obtain ⟨kept, hrun, hin⟩ := Option.bind_eq_some_iff.mp hkept
    obtain ⟨base, hbase, hfile⟩ := htells.kept kept.1 kept.2 hrun
    exact fromRun_fine hwhole h (ofFile_opens hwhole hfile hbase) le_rfl (fun _ => le_rfl) hin
  | none =>
    cases hfed : answers.fed.bind fun fed =>
        fromRun config bound request answers fed.1 (min bound.durable fed.2) true l with
    | some inFed =>
      simp only [hkept, hfed, Option.orElse_none, Option.getD_some] at hfound
      obtain rfl := hfound
      obtain ⟨fed, hrun, hin⟩ := Option.bind_eq_some_iff.mp hfed
      obtain ⟨base, hbase, hfile⟩ := htells.fed fed.1 fed.2 hrun
      refine fromRun_fine hwhole h (ofFile_opens hwhole hfile hbase) (min_le_left _ _) ?_ hin
      intro hb
      have := (hbears hb).fed fed.1 fed.2 hrun
      omega
    | none =>
      simp only [hkept, hfed, Option.orElse_none, Option.getD_none] at hfound
      obtain rfl := hfound
      trivial

theorem Exact.forgetHint (h : Exact objs bound request l) : Exact objs bound request l.forgetHint := by
  refine ⟨h.taken, ?_, ?_, ?_, h.resume⟩
  · have hnext : l.forgetHint.next.offset = l.next.offset := by
      unfold Loop.forgetHint
      simp only
      split <;> rfl
    exact hnext.trans h.next
  · intro place hplace
    apply h.place
    unfold Loop.forgetHint at hplace
    simp only at hplace
    split at hplace
    next => cases hplace
    next => exact hplace
  · intro place hplace
    cases hplace

theorem after_last {last : RunBlock} (hlast : run.blocks.getLast? = some last) {start : RunStart}
    (h : run.after (run.blocks.length - 1) = some start) : start.position = run.end_ := by
  have hne : run.blocks ≠ [] := by
    intro hnil
    simp [hnil] at hlast
  have hpos := List.length_pos_of_ne_nil hne
  unfold Run.after at h
  rw [List.getElem?_eq_none (by omega)] at h
  simp only at h
  split at h
  next => cases h
  next =>
    obtain ⟨_, ⟨⟩⟩ := Option.ite_none_left_eq_some.mp h
    rfl

/-- What follows a run that was read goes on from its end. -/
theorem goOn_exact (h : Exact objs bound request l) (hbehind : Behind objs run.end_ l.cursor)
    (hpast : ∀ block ∈ run.blocks, block.logical.end_ ≤ l.cursor) (start : RunStart)
    (until_ : Nat) : Exact objs bound request (goOn l run start until_) := by
  unfold goOn
  split
  next =>
    cases hlast : run.blocks.getLast? with
    | none =>
      refine { h with resume := ?_ }
      intro resumed hresumed
      cases hresumed
      exact hbehind
    | some last =>
      have hcursor : max l.cursor last.logical.end_ = l.cursor :=
        max_eq_left (hpast last (List.mem_of_getLast? hlast))
      simp only [hcursor]
      refine { h with resume := ?_ }
      intro resumed hresumed
      rw [after_last hlast hresumed]
      exact hbehind
  next => exact h

/-- A run that could not be loaded changes nothing that was taken. -/
theorem refuse_fine (h : Exact objs bound request l) (loaded : Loaded) (answered : Bool)
    (code : Errc) : Fine objs bound request bears (refuse answers l loaded answered code) := by
  unfold refuse
  split
  next => exact h
  next =>
    split
    next => exact h.forgetHint
    next =>
      split
      next => exact ⟨h.taken, h.next, h.place, h.hint, h.resume⟩
      next =>
        split
        next hsome => exact ⟨h, .inl hsome.1⟩
        next => exact failure_fine h code

/-- The end of a sealed copy. -/
theorem sealedEnd_ended {left : List (Laid codec history)}
    (h : bound.sealed_.any (fun records => decide (records ≤ l.cursor)) = true) :
    Ended bound request bears l left (some (sealedEnd bound)) := by
  unfold sealedEnd
  cases hsealed : bound.sealed_ with
  | none => simp [hsealed] at h
  | some records =>
    have hle : records ≤ l.cursor := by simpa [hsealed] using h
    simp only
    split
    next hshort => exact ⟨hshort.1, .inr (.inr ⟨records, hsealed, hle⟩)⟩
    next => exact ⟨records, hsealed, hle⟩

theorem unseen_ended {left : List (Laid codec history)} (h : bound.visible ≤ l.cursor) :
    Ended bound request bears l left (some (unseen bound)) := by
  unfold unseen
  split
  next hshort => exact ⟨hshort, .inl h⟩
  next => exact .inl h

theorem segmentRunAt_eq {base position : Nat} {start : RunStart}
    (h : segmentRunAt history base position = some start) :
    start.position = position ∧ start.base = base := by
  unfold segmentRunAt at h
  split at h
  next => cases h
  next =>
    simp only at h
    obtain ⟨_, ⟨⟩⟩ := Option.ite_none_left_eq_some.mp h
    exact ⟨rfl, rfl⟩

variable (hstated : codec.Stated) (hwhole : Whole objs) {zeroes : Nat}

include hstated hwhole

/-- **What a load comes to**: a run that may be read at the cursor, or one from a place that was
    handed in. -/
theorem loadRun_spec {start : RunStart} (hbehind : Behind objs start.position l.cursor)
    {end_ : Nat} {answered whole : Bool}
    (hfetch : whole = true → start.base ≤ l.cursor ∧ answers.fetched.Tells objs start.base
      ∧ answers.fetchedAgain.Tells objs start.base) {loaded : Loaded}
    (hloaded : loadRun codec history (fileOf objs zeroes) config bound answers l start end_ answered
      whole = loaded) {funded : Bool} (h : loaded.result = .ok (run, funded)) :
    (loaded.hinted = false ∧ Opens objs run l.cursor)
      ∨ (loaded.hinted = true ∧ ∃ place placed, l.hint = some place
        ∧ placedStart history place l.cursor = some placed
        ∧ ReadFrom codec history (fileOf objs zeroes) placed run) := by
  unfold loadRun at hloaded
  simp only at hloaded
  split at hloaded
  next shared hshared =>
    obtain rfl := hloaded.symm
    cases h
    refine .inl ⟨rfl, ?_⟩
    split at hshared
    next hcond =>
      obtain ⟨hle, htells, hagain⟩ := hfetch hcond.1
      split at hshared
      next own hown =>
        cases hshared
        exact fetch_opens hstated hwhole hbehind htells hle hown
      next =>
        split at hshared
        next => exact fetch_opens hstated hwhole hbehind hagain hle hshared
        next => cases hshared
    next => cases hshared
  next why _ =>
    split at hloaded
    next =>
      obtain rfl := hloaded.symm
      cases h
    next =>
      generalize hhinted : (Option.bind (l.hint.filter fun hint =>
        answered && decide (start.position < hint) && decide (hint < min end_ bound.durable))
          fun hint => placedStart history hint l.cursor) = hinted at hloaded
      -- where it is read from, and that what was read is from there
      have hread : ReadFrom codec history (fileOf objs zeroes) (hinted.getD start) run
          ∧ loaded.hinted = hinted.isSome := by
        split at hloaded
        next =>
          obtain rfl := hloaded.symm
          simp only at h
          cases hrun : readAlone codec history (fileOf objs zeroes) config (hinted.getD start)
              (min (min end_ bound.durable) (inFile bound answers.writtenThen))
              (inFile bound answers.writtenThen) answers.turned answers.attempt with
          | error why =>
            rw [hrun] at h
            cases h
          | ok own =>
            rw [hrun] at h
            obtain ⟨rfl, _⟩ := Prod.mk.inj (Except.ok.inj h)
            exact ⟨readAlone_readFrom hrun, rfl⟩
        next =>
          obtain rfl := hloaded.symm
          simp only at h
          cases hrun : readHeld codec history (fileOf objs zeroes) config (hinted.getD start)
              (min end_ bound.durable) answers.turned answers.attempt with
          | error why =>
            rw [hrun] at h
            cases h
          | ok own =>
            rw [hrun] at h
            obtain ⟨rfl, _⟩ := Prod.mk.inj (Except.ok.inj h)
            exact ⟨readHeld_readFrom hrun, rfl⟩
      cases hinted with
      | none => exact .inl ⟨hread.2, ReadFrom.opens hstated hwhole hbehind hread.1⟩
      | some placed =>
        obtain ⟨place, hfilter, hplaced⟩ := Option.bind_eq_some_iff.mp hhinted
        rw [Option.filter_eq_some_iff] at hfilter
        exact .inr ⟨hread.2, place, placed, hfilter.1, hplaced, hread.1⟩

/-- What a load came to may be read at the cursor, once a place that led to no block is forgotten. -/
theorem loaded_opens (h : Exact objs bound request l) (hhonest : Honest objs request.from_)
    {loaded : Loaded}
    (hrun : (loaded.hinted = false ∧ Opens objs run l.cursor)
      ∨ (loaded.hinted = true ∧ ∃ place placed, l.hint = some place
        ∧ placedStart history place l.cursor = some placed
        ∧ ReadFrom codec history (fileOf objs zeroes) placed run))
    (hblocks : ¬ (loaded.hinted ∧ run.blocks = [])) : Opens objs run l.cursor := by
  rcases hrun with ⟨_, hopens⟩ | ⟨hhinted, place, placed, hhint, hplaced, hread⟩
  · exact hopens
  · obtain ⟨hfrom, hcursor⟩ := h.hint place hhint
    have hplace := (hhonest place hfrom).imp id (fun hnot => hnot zeroes)
    rw [← hcursor] at hplace
    exact placed_opens hstated hwhole hplaced hplace hread (fun hnone => hblocks ⟨hhinted, hnone⟩)

/-- **A run that was loaded is taken from.** -/
theorem takeLoaded_fine (h : Exact objs bound request l)
    (hhonest : Honest objs request.from_) {loaded : Loaded} {funded : Bool}
    (hrun : (loaded.hinted = false ∧ Opens objs run l.cursor)
      ∨ (loaded.hinted = true ∧ ∃ place placed, l.hint = some place
        ∧ placedStart history place l.cursor = some placed
        ∧ ReadFrom codec history (fileOf objs zeroes) placed run)) (until_ : Nat) :
    Fine objs bound request bears
      (takeLoaded config bound request answers l loaded run funded until_) := by
  unfold takeLoaded
  split
  next => exact h.forgetHint
  next hblocks =>
    have hopens := loaded_opens hstated hwhole h hhonest hrun hblocks
    obtain ⟨taken, htook, hleft, hon⟩ := @take_spec codec history config bound request answers run
      bound.durable (!loaded.alone && !funded) objs hwhole l hopens
    have hexact := h.took htook le_rfl
    simp only
    generalize l.take config bound request answers run bound.durable (!loaded.alone && !funded)
      = out at htook hleft hon hexact ⊢
    obtain ⟨l', why⟩ := out
    cases why with
    | error code => exact failure_fine hexact code
    | ok step =>
      cases step with
      | on =>
        simp only
        obtain ⟨hbehind, hpast, _⟩ := hon rfl
        split
        next hend =>
          refine ⟨hexact, ?_⟩
          intro _ first rest hfront
          exact hbehind.ends hwhole hend hfront
        next =>
          have hmarked : Exact objs bound request { l' with
              barren := if l'.batches.length = l.batches.length then some loaded.start.position
                else l'.barren } :=
            ⟨hexact.taken, hexact.next, hexact.place, hexact.hint, hexact.resume⟩
          exact goOn_exact hmarked hbehind hpast loaded.start until_
      | limit => exact stopped_fine hexact (by simp) (fun _ => le_rfl) hleft
      | durable => exact stopped_fine hexact (by simp) (fun _ => le_rfl) hleft
      | visible => exact stopped_fine hexact (by simp) (fun _ => le_rfl) hleft


theorem enter_fine (h : Exact objs bound request l)
    (hhonest : Honest objs request.from_) {start : RunStart}
    (hbehind : Behind objs start.position l.cursor) {answered whole : Bool}
    (hfetch : whole = true → start.base ≤ l.cursor ∧ answers.fetched.Tells objs start.base
      ∧ answers.fetchedAgain.Tells objs start.base) (end_ : Nat) :
    Fine objs bound request bears (enter codec history (fileOf objs zeroes) config bound request
      answers l start end_ answered whole) := by
  unfold enter
  split
  next hdurable =>
    refine ⟨h, ?_⟩
    intro _ first rest hfront
    exact hbehind.ends hwhole hdurable hfront
  next =>
    split
    next => exact failure_fine h .malformedData
    next =>
      simp only
      split
      next code _ => exact refuse_fine h _ _ code
      next out hout =>
        obtain ⟨run, funded⟩ := out
        have hrun := loadRun_spec hstated hwhole hbehind hfetch rfl hout
        exact takeLoaded_fine hstated hwhole h hhonest hrun _

/-- The index's anchor is where its block is. -/
theorem locate_fine (h : Exact objs bound request l)
    (hhonest : Honest objs request.from_) (htells : answers.Tells objs l.cursor)
    (hbears : bears → answers.Bears objs bound l.cursor) :
    Fine objs bound request bears
      (locate codec history (fileOf objs zeroes) config bound request answers l) := by
  unfold locate
  split
  next => exact ⟨h, trivial⟩
  next =>
    split
    next why _ =>
      split
      next hsome => exact ⟨h, .inl hsome.1⟩
      next => exact failure_fine h why
    next hnone =>
      refine ⟨h, ?_⟩
      intro hb
      exact (hbears hb).located hnone
    next base position end_ hsome =>
      obtain ⟨hle, hanchor, hfetched, hagain⟩ := htells.located base position end_ hsome
      split
      next => exact failure_fine h .wrongContext
      next start hstart =>
        have hat := segmentRunAt_eq hstart
        refine enter_fine hstated hwhole h hhonest ?_ ?_ end_
        · rw [hat.1]
          exact hanchor.behind hwhole hle
        · intro _
          rw [hat.2]
          exact ⟨hle, hfetched, hagain⟩

/-- **A turn keeps what was returned exact**, and where it ends the read, ends it for a reason that
    is so. -/
theorem turn_fine (h : Exact objs bound request l)
    (hhonest : Honest objs request.from_) (htells : answers.Tells objs l.cursor)
    (hbears : bears → answers.Bears objs bound l.cursor) :
    Fine objs bound request bears
      (turn codec history (fileOf objs zeroes) config bound request answers l) := by
  unfold turn
  split
  next => exact failure_fine h .resourceExhausted
  next =>
  split
  next => exact ⟨h, trivial⟩
  next =>
  split
  next =>
    split
    next => exact failure_fine h .closed
    next hsome => exact ⟨h, .inl hsome⟩
  next =>
  split
  next hsealed => exact ⟨h, sealedEnd_ended hsealed⟩
  next =>
  split
  next hseen => exact ⟨h, unseen_ended hseen⟩
  next =>
  split
  next hlast =>
    refine ⟨h, ?_⟩
    intro _ first rest hfront
    have hmem : first ∈ blocksOf objs := by
      apply (List.dropWhile_sublist _).subset
      rw [show (blocksOf objs).dropWhile _ = _ from hfront]
      exact List.mem_cons_self
    have h₁ := ((continues_rising hwhole).1.records first hmem).2
    have h₂ := beyond_head hfront
    omega
  next =>
  split
  next start hresume =>
    have hnone : Exact objs bound request { l with resume := none } :=
      { h with resume := by simp }
    exact enter_fine hstated hwhole hnone hhonest (h.resume start hresume) (by simp) l.resumeEnd
  next =>
  have hfound := @fromMemory_fine codec history objs bound request config answers l bears hwhole h
    htells hbears
  split
  next hover =>
    rw [hover] at hfound
    exact ⟨h, hfound⟩
  next l' why exhausted hstepped =>
    rw [hstepped] at hfound
    obtain ⟨hexact, ⟨readable, hreadable, hleft⟩, hend⟩ := hfound
    split
    next _ code => exact failure_fine hexact code
    next =>
      split
      next hexhausted => exact ⟨hexact, fun _ => hend rfl hexhausted⟩
      next => exact hexact
    next step hon => exact stopped_fine hexact (fun hstep => hon (by rw [hstep])) hreadable hleft
  next =>
    split
    next => exact h
    next => exact locate_fine hstated hwhole h hhonest htells hbears

end Turn

end KwaqueStorage.SegmentRead
