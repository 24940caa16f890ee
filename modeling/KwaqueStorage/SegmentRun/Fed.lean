import KwaqueStorage.SegmentRun.Feed

/-!
# Runs of the file

What the feed takes into a run is, at every point, the objects of the file from the run's first
block on (`IsRun`): its parts are their bytes, end to end, and its rows are theirs. A feed has runs
of the file in file order, each ending where the next begins or before it (`Has`).
-/

namespace KwaqueStorage.SegmentRun

open Scan Extent

variable {codec : RunCodec} {history : History}

/-! ## Stretches of a file -/

theorem Obj.bytes_pos (o : Obj codec history) : 0 < o.bytes.length := by
  have := o.prefix_le
  have hfixed : envelopePrefixBytes = 32 := rfl
  omega

/-- Two cuts of one file at one position are the same cut. -/
theorem cut_unique {a b c d : List (Obj codec history)} (h : a ++ b = c ++ d)
    (hlen : (flat a).length = (flat c).length) : a = c ∧ b = d := by
  induction a generalizing c with
  | nil =>
    cases c with
    | nil => exact ⟨rfl, h⟩
    | cons o c =>
      have := o.bytes_pos
      simp only [flat_nil, List.length_nil, flat_cons, List.length_append] at hlen
      omega
  | cons o a ih =>
    cases c with
    | nil =>
      have := o.bytes_pos
      simp only [flat_nil, List.length_nil, flat_cons, List.length_append] at hlen
      omega
    | cons o' c =>
      simp only [List.cons_append, List.cons.injEq] at h
      obtain ⟨rfl, h⟩ := h
      simp only [flat_cons, List.length_append, Nat.add_left_cancel_iff] at hlen
      obtain ⟨rfl, rfl⟩ := ih h hlen
      exact ⟨rfl, rfl⟩

@[simp] theorem logicalEnd_nil (logical : Nat) :
    logicalEnd logical ([] : List (Obj codec history)) = logical := rfl

@[simp] theorem physicalEnd_nil (physical : Nat) :
    physicalEnd physical ([] : List (Obj codec history)) = physical := rfl

theorem logicalEnd_block (logical : Nat) (laid : Laid codec history)
    (rest : List (Obj codec history)) :
    logicalEnd logical (.block laid :: rest) = logicalEnd laid.records.logical.end_ rest := by
  unfold logicalEnd
  cases h : blocksOf rest <;> simp [h, List.getLast?_cons]

theorem physicalEnd_block (physical : Nat) (laid : Laid codec history)
    (rest : List (Obj codec history)) :
    physicalEnd physical (.block laid :: rest) = physicalEnd laid.records.physical.end_ rest := by
  unfold physicalEnd
  cases h : blocksOf rest <;> simp [h, List.getLast?_cons]

/-- **Where a stretch ends, the next goes on**, and a stretch keeps a record for each offset. -/
theorem continues_append {a b : List (Obj codec history)} :
    ∀ {logical physical position : Nat},
      Continues logical physical position (a ++ b) ↔
        Continues logical physical position a
          ∧ Continues (logicalEnd logical a) (physicalEnd physical a)
            (position + (flat a).length) b := by
  induction a with
  | nil =>
    intro logical physical position
    simp [Continues]
  | cons o a ih =>
    intro logical physical position
    cases o with
    | footer laid =>
      have hrec := @ih logical physical (position + laid.bytes.length)
      have hl : logicalEnd logical (.footer laid :: a) = logicalEnd logical a := rfl
      have hp : physicalEnd physical (.footer laid :: a) = physicalEnd physical a := rfl
      rw [hl, hp, flat_cons, List.length_append, ← Nat.add_assoc]
      exact hrec
    | block laid =>
      have hrec := @ih laid.records.logical.end_ laid.records.physical.end_
        (position + laid.bytes.length)
      rw [logicalEnd_block, physicalEnd_block, flat_cons, List.length_append, ← Nat.add_assoc]
      simp only [List.cons_append, Continues, Obj.bytes, hrec]
      tauto

theorem continues_dense {objs : List (Obj codec history)} :
    ∀ {logical physical position : Nat}, Continues logical physical position objs →
      logical ≤ logicalEnd logical objs
        ∧ physicalEnd physical objs = physical + (logicalEnd logical objs - logical) := by
  induction objs with
  | nil =>
    intro logical physical position _
    simp
  | cons o rest ih =>
    intro logical physical position h
    cases o with
    | footer laid => exact ih (by exact h)
    | block laid =>
      obtain ⟨_, _, _, hlt, _, hphysical, h⟩ := h
      obtain ⟨hle, heq⟩ := ih h
      rw [logicalEnd_block, physicalEnd_block, heq, hphysical]
      omega

/-- The blocks of a stretch lie in it. -/
theorem continues_within {objs : List (Obj codec history)} :
    ∀ {logical physical position : Nat}, Continues logical physical position objs →
      ∀ laid ∈ blocksOf objs, position ≤ laid.records.bytes.begin_
        ∧ laid.records.bytes.begin_ + laid.bytes.length ≤ position + (flat objs).length := by
  induction objs with
  | nil =>
    intro logical physical position _ laid hmem
    simp at hmem
  | cons o rest ih =>
    intro logical physical position h laid hmem
    rw [flat_cons, List.length_append]
    cases o with
    | footer f =>
      obtain ⟨h₁, h₂⟩ := ih (by exact h) laid hmem
      simp only [Obj.bytes]
      omega
    | block b =>
      obtain ⟨_, _, hb, _, _, _, h⟩ := h
      simp only [Obj.bytes]
      rcases List.mem_cons.mp hmem with rfl | hmem
      · omega
      · obtain ⟨h₁, h₂⟩ := ih h laid hmem
        omega

/-! ## A run's parts -/

/-- The parts of a run lie end to end, and each block whole in the part its row names. -/
structure PartsOk (run : Run) : Prop where
  offsets : ∀ k part, run.parts[k]? = some part →
    part.offset = ((run.parts.take k).map Part.bytes).flatten.length
  size : run.size = run.bytes.length
  within : ∀ block ∈ run.blocks, ∃ part, run.parts[block.part]? = some part
    ∧ part.offset ≤ block.offset ∧ block.offset + block.bytes ≤ part.offset + part.bytes.length

/-- The bytes of a part are those of the run from its offset on. -/
theorem PartsOk.part_bytes {run : Run} (h : PartsOk run) {k : Nat} {part : Part}
    (hk : run.parts[k]? = some part) :
    ∃ a b, run.bytes = a ++ (part.bytes ++ b) ∧ a.length = part.offset := by
  obtain ⟨hlt, hget⟩ := List.getElem?_eq_some_iff.mp hk
  refine ⟨((run.parts.take k).map Part.bytes).flatten,
    ((run.parts.drop (k + 1)).map Part.bytes).flatten, ?_, (h.offsets k part hk).symm⟩
  have hsplit : run.parts = run.parts.take k ++ part :: run.parts.drop (k + 1) := by
    rw [← hget, List.getElem_cons_drop, List.take_append_drop]
  unfold Run.bytes
  conv_lhs => rw [hsplit]
  simp only [List.map_append, List.map_cons, List.flatten_append, List.flatten_cons]

/-- **A batch is the same bytes of the run**, whichever part holds it. -/
theorem PartsOk.batch_eq {run : Run} (h : PartsOk run) {i : Nat} {block : RunBlock}
    (hi : run.blocks[i]? = some block) (hin : block.batchOffset + block.batchBytes ≤ block.bytes) :
    run.batch i = some (bytesAt run.bytes (block.offset + block.batchOffset) block.batchBytes) := by
  obtain ⟨part, hpart, hle, hend⟩ := h.within block (List.mem_of_getElem? hi)
  obtain ⟨a, b, hbytes, ha⟩ := h.part_bytes hpart
  unfold Run.batch
  simp only [hi, hpart]
  rw [if_pos (by omega), hbytes]
  unfold bytesAt
  have hdrop : (a ++ (part.bytes ++ b)).drop (block.offset + block.batchOffset)
      = part.bytes.drop (block.offset - part.offset + block.batchOffset) ++ b := by
    have hsum : block.offset + block.batchOffset
        = a.length + (block.offset - part.offset + block.batchOffset) := by omega
    rw [hsum, ← List.drop_drop, List.drop_left, List.drop_append_of_le_length (by omega)]
  rw [hdrop, List.take_append_of_le_length (by rw [List.length_drop]; omega)]

/-- A run that holds a stretch of the file: its bytes, and a row for each of its blocks. -/
structure Filled (run : Run) (objs : List (Obj codec history)) : Prop where
  parts : PartsOk run
  bytes : run.bytes = flat objs
  table : run.blocks.map RunBlock.described = (blocksOf objs).map (Laid.row run.begin_)
  room : run.blocks.length ≤ maximumRunBlocks

theorem filled_nil (begin_ : Nat) :
    Filled { begin_ := begin_ } ([] : List (Obj codec history)) :=
  ⟨⟨by simp, rfl, by simp⟩, rfl, rfl, Nat.zero_le _⟩

theorem Filled.end_eq {run : Run} {objs : List (Obj codec history)} (h : Filled run objs) :
    run.end_ = run.begin_ + (flat objs).length := by
  unfold Run.end_
  rw [h.parts.size, h.bytes]

/-- One more part goes where the parts before it end. -/
theorem Run.addPart_spec {run run' : Run} (h : PartsOk run) {bytes : List UInt8}
    (ha : run.addPart bytes = some run') :
    run' = { run with
      parts := run.parts ++ [⟨run.bytes.length, bytes⟩], size := run.bytes.length + bytes.length } := by
  unfold Run.addPart at ha
  split at ha
  next => simp at ha
  next =>
    have hoffset : (run.parts.getLast?.map fun last => last.offset + last.bytes.length).getD 0
        = run.bytes.length := by
      rcases List.eq_nil_or_concat run.parts with hnil | ⟨front, last, hconcat⟩
      · simp [hnil, Run.bytes]
      · have hlast := h.offsets front.length last (by simp [hconcat])
        simp only [hconcat, List.concat_eq_append, List.take_left] at hlast
        simp [hconcat, Run.bytes, hlast]
    rw [hoffset] at ha
    exact (Option.some.inj ha).symm

/-- **A stretch that follows is appended.** -/
theorem Filled.append {run run' : Run} {objs more : List (Obj codec history)} (h : Filled run objs)
    {logical physical : Nat} (hcont : Continues logical physical run.end_ more)
    (ha : (run.addPart (flat more)).bind
      (·.addBlocks ((blocksOf more).map (Laid.row run.begin_))) = some run') :
    Filled run' (objs ++ more) ∧ run'.begin_ = run.begin_ := by
  obtain ⟨mid, hmid, hrun⟩ := Option.bind_eq_some_iff.mp ha
  obtain rfl := Run.addPart_spec h.parts hmid
  have hroom := Run.addBlocks_room hrun h.room
  rw [Run.addBlocks_eq (by simp) hroom] at hrun
  cases hrun
  have hend := h.end_eq
  refine ⟨⟨⟨?_, ?_, ?_⟩, ?_, ?_, ?_⟩, rfl⟩
  · intro k part hk
    simp only at hk ⊢
    rcases Nat.lt_or_ge k run.parts.length with hlt | hge
    · rw [List.getElem?_append_left hlt] at hk
      rw [List.take_append_of_le_length hlt.le]
      exact h.parts.offsets k part hk
    · rw [List.getElem?_append_right hge] at hk
      obtain ⟨hzero, rfl⟩ : k - run.parts.length = 0 ∧ ⟨run.bytes.length, flat more⟩ = part := by
        cases hsub : k - run.parts.length with
        | zero => simpa [hsub] using hk
        | succ n => simp [hsub] at hk
      have hk' : k = run.parts.length := by omega
      rw [hk', List.take_left]
      rfl
  · simp [Run.bytes]
  · intro block hmem
    simp only [List.length_append, List.length_singleton, Nat.add_sub_cancel] at hmem ⊢
    rcases List.mem_append.mp hmem with hold | hnew
    · obtain ⟨part, hpart, hin⟩ := h.parts.within block hold
      refine ⟨part, ?_, hin⟩
      rw [List.getElem?_append_left (List.getElem?_eq_some_iff.mp hpart).1]
      exact hpart
    · simp only [List.mem_map] at hnew
      obtain ⟨row, ⟨laid, hlaid, rfl⟩, rfl⟩ := hnew
      obtain ⟨hfrom, hto⟩ := continues_within hcont laid hlaid
      refine ⟨⟨run.bytes.length, flat more⟩, by simp, ?_, ?_⟩
      · show run.bytes.length ≤ laid.records.bytes.begin_ - run.begin_
        rw [h.bytes]
        omega
      · show laid.records.bytes.begin_ - run.begin_ + laid.bytes.length
          ≤ run.bytes.length + (flat more).length
        rw [h.bytes]
        omega
  · have hb := h.bytes
    unfold Run.bytes at hb ⊢
    simp [hb]
  · have htable := h.table
    simp only [List.map_append, List.map_map, blocksOf_append, htable, List.append_cancel_left_eq]
    apply List.map_congr_left
    intro laid _
    rfl
  · simp only [List.length_append, List.length_map] at hroom ⊢
    exact hroom

/-! ## The runs a feed has -/

/-- A run that begins with a block of the file and holds what follows from there. -/
def IsRun (objs : List (Obj codec history)) (base : Nat) (run : Run)
    (mid : List (Obj codec history)) : Prop :=
  ∃ pre post first, objs = pre ++ (mid ++ post) ∧ (mid ++ post).head? = some (.block first)
    ∧ first.records.logical.begin_ = base
    ∧ run.begin_ = history.dataStart + (flat pre).length ∧ Filled run mid

/-- What is made later changes no run. -/
theorem IsRun.more {objs mid : List (Obj codec history)} {base : Nat} {run : Run}
    (h : IsRun objs base run mid) (later : List (Obj codec history)) :
    IsRun (objs ++ later) base run mid := by
  obtain ⟨pre, post, first, rfl, hhead, hbase, hbegin, hfilled⟩ := h
  refine ⟨pre, post ++ later, first, by simp, ?_, hbase, hbegin, hfilled⟩
  rw [← List.append_assoc]
  exact List.head?_append_of_ne_nil _ (by intro hnil; simp [hnil] at hhead) |>.trans hhead

/-- A run holds a stretch of the file. One that is empty has just begun. -/
def OfFile (objs : List (Obj codec history)) (base : Nat) (run : Run) : Prop :=
  ∃ mid, IsRun objs base run mid

/-- A run that was handed to the cache. -/
structure Delivered (objs : List (Obj codec history)) (p : Published) : Prop where
  run : OfFile objs p.base p.run
  holds : p.run.begin_ < p.run.end_
  below : p.run.end_ ≤ p.readable

/-- A run that waits to be handed to the cache, or fills. -/
structure Held (objs : List (Obj codec history)) (r : FedRun) : Prop where
  run : OfFile objs r.base r.building
  holds : r.closed = true → r.building.begin_ < r.building.end_

/-- **What the feed has taken up to a place**: runs of the file in file order, all but the last of
    those that wait complete. -/
structure Has (objs : List (Obj codec history)) (published : List Published)
    (pending : List FedRun) (place : Nat) : Prop where
  delivered : ∀ p ∈ published, Delivered objs p
  held : ∀ r ∈ pending, Held objs r
  ordered : (published.map Published.run ++ pending.map FedRun.building).Pairwise
    fun a b => a.end_ ≤ b.begin_
  before : ∀ run ∈ published.map Published.run ++ pending.map FedRun.building, run.end_ ≤ place
  closed : ∀ r ∈ pending.dropLast, r.closed = true

/-- The run that is filling ends where the feed stands. -/
def Filling (f : Feed) (place : Nat) : Prop :=
  f.skipping = false → f.finished = false →
    ∃ r, f.pending.getLast? = some r ∧ r.closed = false ∧ r.building.end_ = place

/-- While none fills, every run that waits is complete. -/
def Rests (f : Feed) : Prop := f.skipping = true → ∀ r ∈ f.pending, r.closed = true

/-- The run that is filling has begun to. -/
def Begun (f : Feed) : Prop :=
  f.skipping = false → f.finished = false →
    ∀ r, f.pending.getLast? = some r → r.building.begin_ < r.building.end_

section Has

variable {objs : List (Obj codec history)} {published : List Published} {pending : List FedRun}
  {place place' : Nat}

theorem Has.mono (h : Has objs published pending place) (hle : place ≤ place') :
    Has objs published pending place' :=
  { h with before := fun run hr => (h.before run hr).trans hle }

theorem Has.more (h : Has objs published pending place) (later : List (Obj codec history)) :
    Has (objs ++ later) published pending place := by
  refine ⟨?_, ?_, h.ordered, h.before, h.closed⟩
  · intro p hp
    obtain ⟨mid, hmid⟩ := (h.delivered p hp).run
    exact ⟨⟨mid, hmid.more later⟩, (h.delivered p hp).holds, (h.delivered p hp).below⟩
  · intro r hr
    obtain ⟨mid, hmid⟩ := (h.held r hr).run
    exact ⟨⟨mid, hmid.more later⟩, (h.held r hr).holds⟩

/-- The last run is given up. -/
theorem Has.dropLast (h : Has objs published pending place) :
    Has objs published pending.dropLast place := by
  have hsub : (published.map Published.run ++ pending.dropLast.map FedRun.building).Sublist
      (published.map Published.run ++ pending.map FedRun.building) :=
    (List.Sublist.refl _).append ((List.dropLast_sublist pending).map _)
  refine ⟨h.delivered, ?_, h.ordered.sublist hsub, fun run hr => h.before run (hsub.subset hr), ?_⟩
  · intro r hr
    exact h.held r (List.dropLast_subset _ hr)
  · intro r hr
    exact h.closed r (List.dropLast_subset _ hr)

/-- The last run is complete. -/
theorem Has.close (h : Has objs published pending place) {last : FedRun}
    (hlast : pending.getLast? = some last)
    (hholds : last.building.begin_ < last.building.end_) :
    Has objs published (pending.dropLast ++ [{ last with closed := true }]) place := by
  have hsplit : pending = pending.dropLast ++ [last] :=
    (List.dropLast_append_getLast? last hlast).symm
  have hmap : (pending.dropLast ++ [{ last with closed := true }]).map FedRun.building
      = pending.map FedRun.building := by
    conv_rhs => rw [hsplit]
    simp
  refine ⟨h.delivered, ?_, ?_, ?_, ?_⟩
  · intro r hr
    rcases List.mem_append.mp hr with hr | hr
    · exact h.held r (List.dropLast_subset _ hr)
    · obtain rfl := List.mem_singleton.mp hr
      exact ⟨(h.held last (List.mem_of_getLast? hlast)).run, fun _ => hholds⟩
  · rw [hmap]
    exact h.ordered
  · rw [hmap]
    exact h.before
  · rw [List.dropLast_concat]
    exact h.closed

/-- A run begins where the feed stands. -/
theorem Has.beginRun (h : Has objs published pending place)
    (hclosed : ∀ r ∈ pending, r.closed = true) {base : Nat}
    (hrun : OfFile objs base ({ begin_ := place } : Run)) :
    Has objs published (pending ++ [{ base, building := { begin_ := place } }]) place := by
  refine ⟨h.delivered, ?_, ?_, ?_, ?_⟩
  · intro r hr
    rcases List.mem_append.mp hr with hr | hr
    · exact h.held r hr
    · obtain rfl := List.mem_singleton.mp hr
      exact ⟨hrun, by simp⟩
  · rw [List.map_append, ← List.append_assoc, List.pairwise_append]
    refine ⟨h.ordered, by simp, ?_⟩
    intro a ha b hb
    obtain rfl : b = { begin_ := place } := by simpa using hb
    exact h.before a ha
  · intro run hr
    rw [List.map_append, ← List.append_assoc] at hr
    rcases List.mem_append.mp hr with hr | hr
    · exact h.before run hr
    · obtain rfl : run = { begin_ := place } := by simpa using hr
      exact le_rfl
  · rw [List.dropLast_concat]
    exact hclosed

/-- The last run takes what follows it. -/
theorem Has.fill (h : Has objs published pending place) {last : FedRun} {building : Run}
    (hlast : pending.getLast? = some last) (hopen : last.closed = false)
    (hrun : OfFile objs last.base building) (hbegin : building.begin_ = last.building.begin_)
    (hend : building.end_ = place') (hle : place ≤ place') :
    Has objs published (pending.dropLast ++ [{ last with building }]) place' := by
  have hsplit : pending = pending.dropLast ++ [last] :=
    (List.dropLast_append_getLast? last hlast).symm
  have hordered := h.ordered
  have hbefore := h.before
  rw [hsplit, List.map_append, ← List.append_assoc] at hordered hbefore
  refine ⟨h.delivered, ?_, ?_, ?_, ?_⟩
  · intro r hr
    rcases List.mem_append.mp hr with hr | hr
    · exact h.held r (List.dropLast_subset _ hr)
    · obtain rfl := List.mem_singleton.mp hr
      exact ⟨hrun, by simp [hopen]⟩
  · rw [List.map_append, ← List.append_assoc, List.pairwise_append]
    rw [List.pairwise_append] at hordered
    refine ⟨hordered.1, by simp, ?_⟩
    intro a ha b hb
    obtain rfl : b = building := by simpa using hb
    rw [hbegin]
    exact hordered.2.2 a ha last.building (by simp)
  · intro run hr
    rw [List.map_append, ← List.append_assoc] at hr
    rcases List.mem_append.mp hr with hr | hr
    · exact (hbefore run (List.mem_append_left _ hr)).trans hle
    · obtain rfl : run = building := by simpa using hr
      exact hend.le
  · rw [List.dropLast_concat]
    exact h.closed

/-- Runs that are complete and readable are handed over. -/
theorem Has.publish {readable : Nat} :
    ∀ {pending : List FedRun} {published : List Published}, Has objs published pending place →
      Has objs (published ++ (Feed.publishable readable pending).1)
        (Feed.publishable readable pending).2 place := by
  intro pending
  induction pending with
  | nil =>
    intro published h
    simpa [Feed.publishable] using h
  | cons oldest rest ih =>
    intro published h
    unfold Feed.publishable
    split
    next => simpa using h
    next hready =>
      simp only [not_or, Bool.not_eq_false, not_lt] at hready
      have hnext : Has objs (published ++ [⟨oldest.base, oldest.building, readable⟩]) rest place := by
        refine ⟨?_, ?_, ?_, ?_, ?_⟩
        · intro p hp
          rcases List.mem_append.mp hp with hp | hp
          · exact h.delivered p hp
          · obtain rfl := List.mem_singleton.mp hp
            have hheld := h.held oldest List.mem_cons_self
            exact ⟨hheld.run, hheld.holds hready.1, hready.2⟩
        · intro r hr
          exact h.held r (List.mem_cons_of_mem _ hr)
        · simpa using h.ordered
        · simpa using h.before
        · intro r hr
          apply h.closed r
          cases rest with
          | nil => simp at hr
          | cons next rest =>
            rw [List.dropLast_cons_cons]
            exact List.mem_cons_of_mem _ hr
      simpa using ih hnext

end Has

end KwaqueStorage.SegmentRun
