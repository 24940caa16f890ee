import KwaqueStorage.SegmentRun.Cut
import KwaqueStorage.SegmentRun.Take
import KwaqueStorage.SegmentRead.Read

/-!
# What a read takes out of a run

The blocks of a segment that a read still has to return are those that end past its cursor
(`beyond`). `take` moves blocks from the front of that list to the batches of the read, and says why
it left a run.
-/

namespace KwaqueStorage.SegmentRead

open Scan Extent SegmentRun

variable {codec : RunCodec} {history : History}

/-! ## The blocks past an offset -/

/-- The blocks that end past an offset. -/
def beyond (blocks : List (Laid codec history)) (cursor : Nat) : List (Laid codec history) :=
  blocks.dropWhile fun laid => decide (laid.records.logical.end_ ≤ cursor)

/-- Blocks in order, each of a record at least. -/
structure Rising (blocks : List (Laid codec history)) : Prop where
  ordered : blocks.Pairwise fun a b => a.records.logical.end_ ≤ b.records.logical.begin_
  records : ∀ laid ∈ blocks, laid.records.logical.begin_ < laid.records.logical.end_
    ∧ laid.records.logical.end_ ≤ noOffset

theorem continues_rising {objs : List (Obj codec history)} :
    ∀ {logical physical position : Nat}, Continues logical physical position objs →
      Rising (blocksOf objs) ∧ ∀ laid ∈ blocksOf objs, logical ≤ laid.records.logical.begin_ := by
  induction objs with
  | nil =>
    intro logical physical position _
    exact ⟨⟨by simp, by simp⟩, by simp⟩
  | cons o rest ih =>
    intro logical physical position h
    cases o with
    | footer laid => exact ih (by exact h)
    | block laid =>
      obtain ⟨hbegin, _, _, hlt, hmax, _, h⟩ := h
      obtain ⟨hrising, hfrom⟩ := ih h
      refine ⟨⟨?_, ?_⟩, ?_⟩
      · rw [blocksOf_block, List.pairwise_cons]
        exact ⟨hfrom, hrising.ordered⟩
      · intro other hmem
        rcases List.mem_cons.mp hmem with rfl | hmem
        · exact ⟨by omega, hmax⟩
        · exact hrising.records other hmem
      · intro other hmem
        rcases List.mem_cons.mp hmem with rfl | hmem
        · exact hbegin.ge
        · have := hfrom other hmem
          omega

section Beyond

variable {a b : List (Laid codec history)} {laid : Laid codec history} {cursor : Nat}

/-- What ends at or before an offset is passed. -/
theorem beyond_append (h : ∀ x ∈ a, x.records.logical.end_ ≤ cursor) :
    beyond (a ++ b) cursor = beyond b cursor := by
  unfold beyond
  apply List.dropWhile_append_of_pos
  intro x hx
  simpa using h x hx

theorem beyond_cons (h : cursor < laid.records.logical.end_) :
    beyond (laid :: b) cursor = laid :: b := by
  unfold beyond
  rw [List.dropWhile_cons_of_neg]
  simpa using h

/-- Blocks that all end past an offset are none of them passed. -/
theorem beyond_all (h : ∀ x ∈ b, cursor < x.records.logical.end_) : beyond b cursor = b := by
  cases b with
  | nil => rfl
  | cons laid rest => exact beyond_cons (h laid List.mem_cons_self)

/-- **Taking a block**: past its end are the blocks after it. -/
theorem beyond_end (h : Rising (a ++ laid :: b)) :
    beyond (a ++ laid :: b) laid.records.logical.end_ = b := by
  have hordered := h.ordered
  rw [List.pairwise_append, List.pairwise_cons] at hordered
  rw [beyond_append]
  · have hself : beyond (laid :: b) laid.records.logical.end_
        = beyond b laid.records.logical.end_ := by
      apply beyond_append (a := [laid])
      simp
    rw [hself]
    apply beyond_all
    intro x hx
    have h₁ := hordered.2.1.1 x hx
    have h₂ := (h.records x (by simp [hx])).1
    omega
  · intro x hx
    have h₁ := hordered.2.2 x hx laid List.mem_cons_self
    have h₂ := (h.records laid (by simp)).1
    omega

theorem beyond_head {rest : List (Laid codec history)} (h : beyond a cursor = laid :: rest) :
    cursor < laid.records.logical.end_ := by
  have hhead := List.head?_dropWhile_not
    (fun x : Laid codec history => decide (x.records.logical.end_ ≤ cursor)) a
  rw [show a.dropWhile _ = laid :: rest from h] at hhead
  simpa using hhead

theorem beyond_next (h : Rising a) {rest : List (Laid codec history)}
    (hfront : beyond a cursor = laid :: rest) : beyond a laid.records.logical.end_ = rest := by
  have hsplit := (List.takeWhile_append_dropWhile
    (p := fun x : Laid codec history => decide (x.records.logical.end_ ≤ cursor)) (l := a)).symm
  rw [show a.dropWhile _ = laid :: rest from hfront] at hsplit
  rw [hsplit] at h ⊢
  exact beyond_end h

end Beyond

/-- A block as a read returns it. -/
def batchOf (laid : Laid codec history) : Batch :=
  ⟨laid.records.logical, laid.records.physical, laid.batch⟩

/-! ## Offering a block -/

/-- What `offer` may change: what is wanted, and what the read's runs are charged. -/
def Loop.Same (l l' : Loop) : Prop :=
  l' = { l with wanted := l'.wanted, charged := l'.charged, keptBytes := l'.keptBytes }

section Offer

variable {config : Config} {bound : Bounds} {request : Request} {answers : Answers} {run : Run}
  {readable : Nat} {cached : Bool} {l : Loop}

/-- Why a read stops at a block, or why it does not. -/
def Offered (bound : Bounds) (request : Request) (end_ : Nat) (readable : Nat)
    (block : RunBlock) (l : Loop) : Option (Except Errc Step) → Prop
  | none => block.logical.end_ ≤ bound.visible ∧ end_ ≤ readable
  | some (.error _) => True
  | some (.ok .on) => False
  | some (.ok .visible) => bound.visible < block.logical.end_
  | some (.ok .durable) => readable < end_
  | some (.ok .limit) => l.batches ≠ []
      ∨ (request.atLeastOne = false ∧ request.limit < block.batchBytes
        ∧ l.wanted = block.batchBytes)

theorem offer_spec (block : RunBlock) :
    let offered := l.offer config bound request answers run readable cached block
    l.Same offered.1
      ∧ Offered bound request (run.begin_ + block.offset + block.bytes) readable block offered.1
        offered.2 := by
  unfold Loop.offer
  simp only
  split
  next h => exact ⟨rfl, h⟩
  next hvisible =>
    split
    next h => exact ⟨rfl, h⟩
    next hreadable =>
      split
      next h => exact ⟨rfl, .inr ⟨h.2.1, h.2.2, rfl⟩⟩
      next =>
        split
        next h => exact ⟨rfl, .inl h.1⟩
        next =>
          have hnone : Offered bound request (run.begin_ + block.offset + block.bytes) readable
              block l none := ⟨by omega, by omega⟩
          unfold Loop.pin
          split
          next => exact ⟨rfl, hnone⟩
          next =>
            split
            next h => exact ⟨rfl, .inl h.1⟩
            next =>
              cases answers.charge with
              | none => exact ⟨rfl, hnone⟩
              | some why =>
                refine ⟨rfl, ?_⟩
                simp only
                split
                next => trivial
                next h => exact .inl h

end Offer

/-! ## Taking from a run -/

/-- Why a read left a run, with `left` the blocks it has not returned. -/
def Left (bound : Bounds) (request : Request) (readable : Nat) (l : Loop)
    (left : List (Laid codec history)) : Except Errc Step → Prop
  | .error _ => True
  | .ok .on => True
  | .ok .visible => ∃ first rest, left = first :: rest ∧ bound.visible < first.records.logical.end_
  | .ok .durable => ∃ first rest, left = first :: rest ∧ readable < first.records.bytes.end_
  | .ok .limit => l.batches ≠ []
      ∨ (request.atLeastOne = false ∧ ∃ first rest, left = first :: rest
        ∧ request.limit < first.batch.length ∧ l.wanted = first.batch.length)

/-- Where a stretch of blocks that begins at an offset ends. -/
def endOf (asked : Nat) (taken : List (Laid codec history)) : Nat :=
  (taken.getLast?.map fun laid => laid.records.logical.end_).getD asked

theorem endOf_append (asked : Nat) (a b : List (Laid codec history)) :
    endOf asked (a ++ b) = endOf (endOf asked a) b := by
  unfold endOf
  rw [List.getLast?_append]
  cases b.getLast? <;> simp

/-- **Past the end of the first blocks past an offset** are the others. -/
theorem beyond_endOf {all : List (Laid codec history)} (hrising : Rising all)
    {taken : List (Laid codec history)} :
    ∀ {asked : Nat} {rest : List (Laid codec history)}, beyond all asked = taken ++ rest →
      beyond all (endOf asked taken) = rest := by
  induction taken with
  | nil =>
    intro asked rest h
    exact h
  | cons laid taken ih =>
    intro asked rest h
    have hnext := ih (beyond_next hrising h)
    rw [← hnext]
    have hend := endOf_append asked [laid] taken
    rw [List.singleton_append] at hend
    rw [hend]
    rfl

/-- **What a read took**: blocks from the front of those past its cursor. A place it hands back after
    one of them is one of `places`. -/
structure Took (all : List (Laid codec history)) (bound : Bounds) (readable : Nat)
    (places : Nat → Prop) (l l' : Loop) (taken : List (Laid codec history)) : Prop where
  front : beyond all l.cursor = taken ++ beyond all l'.cursor
  batches : l'.batches = l.batches ++ taken.map batchOf
  within : ∀ laid ∈ taken, laid.records.logical.end_ ≤ bound.visible
    ∧ laid.records.bytes.end_ ≤ readable
  same : l'.resume = l.resume ∧ l'.resumeEnd = l.resumeEnd ∧ l'.barren = l.barren
    ∧ l'.reported = l.reported
  passed : l.cursor ≤ l'.cursor ∧ ∀ laid ∈ taken, laid.records.logical.end_ ≤ l'.cursor
  none_ : taken = [] → l'.next = l.next ∧ l'.cursor = l.cursor ∧ l'.hint = l.hint
  some_ : taken ≠ [] → l'.next.offset = l'.cursor ∧ l'.hint = none
    ∧ ∀ place, l'.next.block = some place → places place
  last : l'.cursor = endOf l.cursor taken

section Took

variable {all : List (Laid codec history)} {bound : Bounds} {readable : Nat} {l l' l'' : Loop}
  {taken more : List (Laid codec history)} {places : Nat → Prop}

/-- Nothing was taken. -/
theorem Loop.Same.took (h : l.Same l') : Took all bound readable places l l' [] := by
  unfold Loop.Same at h
  refine ⟨?_, ?_, by simp, ?_, ?_, ?_, by simp, ?_⟩
  · rw [h]
    rfl
  · rw [h]
    simp
  · rw [h]
    simp
  · rw [h]
    simp
  · intro _
    rw [h]
    simp
  · rw [h]
    rfl

theorem Took.trans (h : Took all bound readable places l l' taken)
    (h' : Took all bound readable places l' l'' more) :
    Took all bound readable places l l'' (taken ++ more) := by
  refine ⟨?_, ?_, ?_, ?_, ?_, ?_, ?_, ?_⟩
  · rw [h.front, h'.front, List.append_assoc]
  · rw [h'.batches, h.batches, List.map_append, List.append_assoc]
  · intro laid hmem
    rcases List.mem_append.mp hmem with hmem | hmem
    · exact h.within laid hmem
    · exact h'.within laid hmem
  · obtain ⟨h₁, h₂, h₃, h₄⟩ := h.same
    obtain ⟨h₁', h₂', h₃', h₄'⟩ := h'.same
    exact ⟨h₁'.trans h₁, h₂'.trans h₂, h₃'.trans h₃, h₄'.trans h₄⟩
  · refine ⟨h.passed.1.trans h'.passed.1, ?_⟩
    intro laid hmem
    rcases List.mem_append.mp hmem with hmem | hmem
    · exact (h.passed.2 laid hmem).trans h'.passed.1
    · exact h'.passed.2 laid hmem
  · intro hnone
    obtain ⟨rfl, rfl⟩ := List.append_eq_nil_iff.mp hnone
    obtain ⟨h₁, h₂, h₃⟩ := h.none_ rfl
    obtain ⟨h₁', h₂', h₃'⟩ := h'.none_ rfl
    exact ⟨h₁'.trans h₁, h₂'.trans h₂, h₃'.trans h₃⟩
  · intro hsome
    by_cases hmore : more = []
    · obtain ⟨h₁', h₂', h₃'⟩ := h'.none_ hmore
      have htaken : taken ≠ [] := by
        rintro rfl
        exact hsome (by simp [hmore])
      obtain ⟨h₁, h₂, h₃⟩ := h.some_ htaken
      exact ⟨by rw [h₁', h₂', h₁], h₃'.trans h₂, h₁' ▸ h₃⟩
    · exact h'.some_ hmore
  · rw [h'.last, h.last, endOf_append]

end Took

section Run

variable {config : Config} {bound : Bounds} {request : Request} {answers : Answers} {run : Run}
  {readable : Nat} {cached : Bool} {all : List (Laid codec history)} {places : Nat → Prop}

/-- A batch is taken off the front. -/
theorem push_took (hrising : Rising all) {l : Loop} {laid : Laid codec history}
    {rest : List (Laid codec history)} (hfront : beyond all l.cursor = laid :: rest)
    {block : RunBlock} (hblock : block.described = laid.row run.begin_) (at_ : Nat)
    (hvisible : laid.records.logical.end_ ≤ bound.visible)
    (hreadable : laid.records.bytes.end_ ≤ readable)
    (hafter : ∀ start, run.after at_ = some start → places start.position) :
    Took all bound readable places l (l.push config run at_ block laid.batch) [laid]
      ∧ beyond all (l.push config run at_ block laid.batch).cursor = rest := by
  have hlogical : block.logical = laid.records.logical := (congrArg RunBlock.logical hblock :)
  have hphysical : block.physical = laid.records.physical := (congrArg RunBlock.physical hblock :)
  have hcursor : (l.push config run at_ block laid.batch).cursor = laid.records.logical.end_ := by
    show block.logical.end_ = _
    rw [hlogical]
  have hrest : beyond all (l.push config run at_ block laid.batch).cursor = rest := by
    rw [hcursor]
    exact beyond_next hrising hfront
  refine ⟨⟨?_, ?_, ?_, ⟨rfl, rfl, rfl, rfl⟩, ?_, by simp, fun _ => ⟨rfl, rfl, ?_⟩, hcursor⟩, hrest⟩
  · rw [hrest, hfront]
    rfl
  · show l.batches ++ [⟨block.logical, block.physical, laid.batch⟩] = _
    rw [hlogical, hphysical]
    rfl
  · intro x hx
    obtain rfl := List.mem_singleton.mp hx
    exact ⟨hvisible, hreadable⟩
  · rw [hcursor]
    refine ⟨(beyond_head hfront).le, ?_⟩
    intro x hx
    obtain rfl := List.mem_singleton.mp hx
    exact le_rfl
  · intro place hplace
    obtain ⟨start, hstart, rfl⟩ := Option.map_eq_some_iff.mp hplace
    exact hafter start hstart

/-- **The loop of `take`.** The induction is on the blocks of the run that are left, which are the
    first of those past the cursor. -/
theorem takeFrom_spec (hrising : Rising all)
    (hafter : ∀ k start, run.after k = some start → places start.position) {laids : List (Laid codec history)} :
    ∀ {rows : List RunBlock} {k : Nat} {l : Loop},
      rows.map RunBlock.described = laids.map (Laid.row run.begin_) →
      (∀ i laid, laids[i]? = some laid → run.batch (k + i) = some laid.batch) →
      (∀ laid ∈ laids, run.begin_ ≤ laid.records.bytes.begin_) →
      (∃ rest, beyond all l.cursor = laids ++ rest) →
      let left := l.takeFrom config bound request answers run readable cached rows k
      ∃ taken, Took all bound readable places l left.1 taken
        ∧ Left bound request readable left.1 (beyond all left.1.cursor) left.2
        ∧ (left.2 = .ok .on → taken = laids) := by
  induction laids with
  | nil =>
    intro rows k l hrows _ _ _
    obtain rfl : rows = [] := by simpa using hrows
    exact ⟨[], Loop.Same.took rfl, trivial, fun _ => rfl⟩
  | cons laid laids ih =>
    intro rows k l hrows hbatches hplaces hfront
    obtain ⟨rest, hfront⟩ := hfront
    cases rows with
    | nil => simp at hrows
    | cons block rows =>
      simp only [List.map_cons, List.cons.injEq] at hrows
      obtain ⟨hblock, hrows⟩ := hrows
      have hlogical : block.logical = laid.records.logical := (congrArg RunBlock.logical hblock :)
      have hbytes : block.batchBytes = laid.batch.length := by
        rw [laid.length_batch]
        exact (congrArg RunBlock.batchBytes hblock :)
      have hend : run.begin_ + block.offset + block.bytes = laid.records.bytes.end_ := by
        have h₁ : block.offset = laid.records.bytes.begin_ - run.begin_ :=
          (congrArg RunBlock.offset hblock :)
        have h₂ : block.bytes = laid.bytes.length := (congrArg RunBlock.bytes hblock :)
        have h₃ := hplaces laid List.mem_cons_self
        have h₄ := laid.span
        omega
      obtain ⟨hsame, hoffered⟩ := @offer_spec config bound request answers run readable cached l block
      rw [hend] at hoffered
      unfold Loop.takeFrom
      generalize l.offer config bound request answers run readable cached block = outcome
        at hsame hoffered ⊢
      obtain ⟨l₁, offered⟩ := outcome
      have htook : Took all bound readable places l l₁ [] := hsame.took
      have hfront₁ : beyond all l₁.cursor = laid :: (laids ++ rest) := by
        have := htook.front
        rw [List.nil_append] at this
        rw [← this, hfront]
        rfl
      cases offered with
      | some why =>
        simp only
        refine ⟨[], htook, ?_, ?_⟩
        · rw [hfront₁]
          cases why with
          | error code => trivial
          | ok step =>
            cases step with
            | on => trivial
            | visible => exact ⟨laid, _, rfl, hlogical ▸ hoffered⟩
            | durable => exact ⟨laid, _, rfl, hoffered⟩
            | limit =>
              rcases hoffered with hsome | ⟨hleast, hlimit, hwanted⟩
              · exact .inl hsome
              · exact .inr ⟨hleast, laid, _, rfl, hbytes ▸ hlimit, hbytes ▸ hwanted⟩
        · rintro rfl
          exact absurd hoffered (by simp [Offered])
      | none =>
        obtain ⟨hvisible, hreadable⟩ := hoffered
        have hbatch : run.batch k = some laid.batch := hbatches 0 laid rfl
        simp only [hbatch]
        split
        next => exact ⟨[], htook, trivial, by simp⟩
        next =>
          obtain ⟨hpush, hfront₂⟩ := @push_took codec history config bound run readable all places
            hrising l₁ laid _ hfront₁ block hblock k (hlogical ▸ hvisible) hreadable (hafter k)
          have htook₂ := htook.trans hpush
          split
          next =>
            refine ⟨_, htook₂, .inl ?_, by simp⟩
            simp [Loop.push]
          next =>
            obtain ⟨taken, hmore, hleft, hon⟩ := @ih rows (k + 1)
              (l₁.push config run k block laid.batch) hrows
              (fun i x hi => by
                have := hbatches (i + 1) x (by simpa using hi)
                rwa [show k + 1 + i = k + (i + 1) by omega])
              (fun x hx => hplaces x (List.mem_cons_of_mem _ hx)) ⟨rest, hfront₂⟩
            refine ⟨_, htook₂.trans hmore, hleft, ?_⟩
            intro h
            rw [hon h]
            rfl

/-- An object begins at a place, or the file's objects end there. -/
def Begins (objs : List (Obj codec history)) (place : Nat) : Prop :=
  ∃ pre post, objs = pre ++ post ∧ place = history.dataStart + (flat pre).length

/-- Every block before a place of the file ends at or before an offset. -/
def Behind (objs : List (Obj codec history)) (position cursor : Nat) : Prop :=
  ∃ pre post, objs = pre ++ post ∧ position = history.dataStart + (flat pre).length
    ∧ ∀ laid ∈ blocksOf pre, laid.records.logical.end_ ≤ cursor

theorem Behind.mono {objs : List (Obj codec history)} {position cursor cursor' : Nat}
    (h : Behind objs position cursor) (hle : cursor ≤ cursor') : Behind objs position cursor' := by
  obtain ⟨pre, post, hobjs, hposition, hpast⟩ := h
  exact ⟨pre, post, hobjs, hposition, fun laid hmem => (hpast laid hmem).trans hle⟩

/-- **A run that may be read at an offset**: it shows objects of the file from a place on before
    which nothing lies past the offset. -/
def Opens (objs : List (Obj codec history)) (run : Run) (cursor : Nat) : Prop :=
  ∃ pre mid post, objs = pre ++ (mid ++ post)
    ∧ run.begin_ = history.dataStart + (flat pre).length ∧ Shows run mid
    ∧ ∀ laid ∈ blocksOf pre, laid.records.logical.end_ ≤ cursor

/-- The rows past an offset are those of the blocks past it. -/
theorem shows_seek {mid : List (Obj codec history)} (h : Shows run mid) (cursor : Nat) :
    (run.blocks.drop (run.seek cursor)).map RunBlock.described
        = (beyond (blocksOf mid) cursor).map (Laid.row run.begin_)
      ∧ beyond (blocksOf mid) cursor = (blocksOf mid).drop (run.seek cursor)
      ∧ run.blocks.length = (blocksOf mid).length := by
  have hseek : run.seek cursor = (blocksOf mid).findIdx
      fun laid => decide (cursor < laid.records.logical.end_) := by
    have hrows := congrArg
      (List.findIdx fun row : RunBlock => decide (cursor < row.logical.end_)) h.table
    rw [List.findIdx_map, List.findIdx_map] at hrows
    exact hrows
  have hbeyond : beyond (blocksOf mid) cursor = (blocksOf mid).drop (run.seek cursor) := by
    unfold beyond
    rw [List.dropWhile_eq_drop_findIdx_not, hseek]
    congr 2
    funext laid
    rw [← decide_not, decide_eq_decide]
    omega
  refine ⟨?_, hbeyond, ?_⟩
  · rw [hbeyond, List.map_drop, List.map_drop, h.table]
  · have hlength := congrArg List.length h.table
    simpa using hlength

/-- What follows a block of a run begins an object, or ends the run. -/
theorem after_begins {objs pre mid post : List (Obj codec history)}
    (hobjs : objs = pre ++ (mid ++ post)) {logical physical : Nat}
    (hcont : Continues logical physical run.begin_ mid)
    (hbegin : run.begin_ = history.dataStart + (flat pre).length) (h : Shows run mid) {k : Nat}
    {start : RunStart} (hafter : run.after k = some start) : Begins objs start.position := by
  unfold Run.after at hafter
  split at hafter
  next following hnext =>
    cases hafter
    have hrow : following.described ∈ (blocksOf mid).map (Laid.row run.begin_) := by
      rw [← h.table]
      exact List.mem_map_of_mem (List.mem_of_getElem? hnext)
    obtain ⟨laid, hlaid, hsame⟩ := List.mem_map.mp hrow
    have hoffset : laid.records.bytes.begin_ - run.begin_ = following.offset :=
      (congrArg RunBlock.offset hsame :)
    obtain ⟨a, b, rfl⟩ := mem_blocksOf hlaid
    rw [continues_append] at hcont
    have hplace : laid.records.bytes.begin_ = run.begin_ + (flat a).length := hcont.2.2.2.1
    refine ⟨pre ++ a, .block laid :: b ++ post, by rw [hobjs]; simp, ?_⟩
    show run.begin_ + following.offset = _
    rw [← hoffset, hplace, hbegin, flat_append, List.length_append]
    omega
  next =>
    split at hafter
    next => cases hafter
    next =>
      obtain ⟨_, ⟨⟩⟩ := Option.ite_none_left_eq_some.mp hafter
      refine ⟨pre ++ mid, post, by rw [hobjs, List.append_assoc], ?_⟩
      show run.end_ = _
      rw [h.end_, hbegin, flat_append, List.length_append, Nat.add_assoc]

/-- **What `take` does to a run that may be read at the cursor.** -/
theorem take_spec {objs : List (Obj codec history)} (hwhole : Whole objs) {l : Loop}
    (h : Opens objs run l.cursor) :
    let left := l.take config bound request answers run readable cached
    ∃ taken, Took (blocksOf objs) bound readable (Begins objs) l left.1 taken
      ∧ Left bound request readable left.1 (beyond (blocksOf objs) left.1.cursor) left.2
      ∧ (left.2 = .ok .on → Behind objs run.end_ left.1.cursor
        ∧ (∀ block ∈ run.blocks, block.logical.end_ ≤ left.1.cursor)
        ∧ (run.seek l.cursor < run.blocks.length → taken ≠ [])) := by
  obtain ⟨pre, mid, post, hobjs, hbegin, hshows, hpast⟩ := h
  obtain ⟨hrows, hbeyond, hlength⟩ := shows_seek hshows l.cursor
  have hcont := hwhole.at_ hobjs
  rw [← hbegin] at hcont
  have hall : blocksOf objs = blocksOf pre ++ (blocksOf mid ++ blocksOf post) := by
    rw [hobjs, blocksOf_append, blocksOf_append]
  have hfront : ∃ rest, beyond (blocksOf objs) l.cursor
      = beyond (blocksOf mid) l.cursor ++ rest := by
    rw [hall, beyond_append hpast]
    by_cases hnone : beyond (blocksOf mid) l.cursor = []
    · exact ⟨_, by rw [hnone]; rfl⟩
    · refine ⟨blocksOf post, ?_⟩
      unfold beyond at hnone ⊢
      rw [List.dropWhile_append, if_neg (by simpa using hnone)]
  have hafter : ∀ k start, run.after k = some start → Begins objs start.position :=
    fun k start => after_begins hobjs hcont hbegin hshows
  have hbatches : ∀ i laid, (beyond (blocksOf mid) l.cursor)[i]? = some laid →
      run.batch (run.seek l.cursor + i) = some laid.batch := by
    intro i laid hi
    rw [hbeyond, List.getElem?_drop] at hi
    exact hshows.batches _ laid hi
  have hplaces : ∀ laid ∈ beyond (blocksOf mid) l.cursor,
      run.begin_ ≤ laid.records.bytes.begin_ := by
    intro laid hmem
    exact (continues_within hcont laid ((List.dropWhile_sublist _).subset hmem)).1
  obtain ⟨taken, htook, hleft, hon⟩ := @takeFrom_spec codec history config bound request answers run
    readable cached (blocksOf objs) (Begins objs) (continues_rising hwhole).1 hafter _ _ _ l hrows
    hbatches hplaces hfront
  refine ⟨taken, htook, hleft, ?_⟩
  intro hstep
  obtain rfl := hon hstep
  have hmid : ∀ laid ∈ blocksOf mid, laid.records.logical.end_
      ≤ (l.take config bound request answers run readable cached).1.cursor := by
    intro laid hmem
    have hsplit := List.takeWhile_append_dropWhile (l := blocksOf mid)
      (p := fun x : Laid codec history => decide (x.records.logical.end_ ≤ l.cursor))
    rw [← hsplit] at hmem
    rcases List.mem_append.mp hmem with hmem | hmem
    · have hle := List.all_eq_true.mp List.all_takeWhile laid hmem
      exact (by simpa using hle : laid.records.logical.end_ ≤ l.cursor).trans htook.passed.1
    · exact htook.passed.2 laid hmem
  refine ⟨⟨pre ++ mid, post, by rw [hobjs, List.append_assoc], ?_, ?_⟩, ?_, ?_⟩
  · rw [hshows.end_, hbegin, flat_append, List.length_append, Nat.add_assoc]
  · intro laid hmem
    rw [blocksOf_append] at hmem
    rcases List.mem_append.mp hmem with hmem | hmem
    · exact (hpast laid hmem).trans htook.passed.1
    · exact hmid laid hmem
  · intro block hmem
    have hrow : block.described ∈ (blocksOf mid).map (Laid.row run.begin_) := by
      rw [← hshows.table]
      exact List.mem_map_of_mem hmem
    obtain ⟨laid, hlaid, hsame⟩ := List.mem_map.mp hrow
    have hlogical : laid.records.logical = block.logical := (congrArg RunBlock.logical hsame :)
    rw [← hlogical]
    exact hmid laid hlaid
  · intro hlt hnone
    rw [hbeyond, List.drop_eq_nil_iff] at hnone
    omega

end Run

end KwaqueStorage.SegmentRead
