import KwaqueStorage.SegmentRun.Follow

/-!
# A fed run is the run a read would make

Whatever the writer, the readers, the clock and the allocations do, every run that a feed publishes
is a stretch of the file, and the walk of `check_segment_run` over that stretch read back makes the
same run.
-/

namespace KwaqueStorage.SegmentRun

open Scan Extent

variable {codec : RunCodec} {history : History}

/-! ## Every run of the system -/

section Runs

variable {config : Config} {s s' : Segment codec history}

/-- **The invariant**: the file goes on from its start, and the feed has runs of it. -/
structure Segment.Sound (s : Segment codec history) : Prop where
  whole : Whole s.objs
  has : ∃ place, Has s.objs s.feed.published s.feed.pending place
  goes : s.feed.closing = false → Goes s.objs s.end_ s.feed
  closed : s.feed.closing = true → s.feed.wanted = false

variable {objs : List (Obj codec history)}

theorem Goes.has {end_ : Nat} {f : Feed} (h : Goes objs end_ f) : ∃ place, Has objs f.published f.pending place := by
  obtain ⟨place, hs, _⟩ := h.stands
  exact ⟨place, hs.has⟩

theorem sound_init : ({} : Segment codec history).Sound := by
  have hhas : Has ([] : List (Obj codec history)) [] [] history.dataStart :=
    ⟨by simp, by simp, by simp, by simp, by simp⟩
  refine ⟨trivial, ⟨_, hhas⟩, fun _ => ⟨⟨_, ⟨hhas, ?_, ?_, ?_⟩, ?_⟩, ?_, ?_⟩, by simp⟩
  · intro h
    simp at h
  · simp [Rests]
  · intro h
    simp at h
  · exact ⟨le_rfl, by simp⟩
  · simp
  · simp

/-- A step of the feed alone. -/
theorem Segment.Sound.feed (h : s.Sound) {f : Feed} (hclosing : f.closing = s.feed.closing)
    (hgoes : s.feed.closing = false → Goes s.objs s.end_ f)
    (hrest : s.feed.closing = true → f.published = s.feed.published
      ∧ f.pending = s.feed.pending ∧ f.wanted = false) :
    Segment.Sound { s with feed := f } := by
  refine ⟨h.whole, ?_, fun hno => hgoes (hclosing ▸ hno), fun hyes => ?_⟩
  · cases hc : s.feed.closing with
    | false => exact (hgoes hc).has
    | true =>
      obtain ⟨place, hhas⟩ := h.has
      obtain ⟨hp, hq, _⟩ := hrest hc
      refine ⟨place, ?_⟩
      show Has s.objs f.published f.pending place
      rw [hp, hq]
      exact hhas
  · exact (hrest (hclosing ▸ hyes)).2.2

theorem made_sound {blocks : List (Laid codec history × Bool)} {footer : Option (LaidFooter codec)}
    {torn idle kept : Bool} (h : s.Sound)
    (hstep : s.step config (.made blocks footer torn idle kept) = some s') : s'.Sound := by
  simp only [Segment.step] at hstep
  split at hstep
  next => simp at hstep
  next hopen =>
    split at hstep
    next hcont =>
      cases hstep
      have hwhole : Whole (s.objs ++ Segment.groupObjs blocks footer) :=
        continues_append.mpr ⟨h.whole, hcont⟩
      cases hclosing : s.feed.closing with
      | true =>
        have hwanted := h.closed hclosing
        have hpassed : (s.feed.note (blocks.map fun b => b.1.noted b.2) torn).wanted = false :=
          hwanted
        rw [if_neg (by rw [hpassed]; simp)]
        obtain ⟨place, hhas⟩ := h.has
        refine ⟨hwhole, ⟨place, hhas.more _⟩, ?_, fun _ => hwanted⟩
        intro hno
        exact absurd (hclosing.symm.trans hno) (by simp)
      | false =>
        have hgoes := @Goes.made codec history s.objs s.feed config s.end_ (h.goes hclosing)
          (eq_false_of_ne_true hopen) blocks footer torn idle kept rfl
        have hend : s.end_ + (flat (Segment.groupObjs blocks footer
              : List (Obj codec history))).length
            = history.dataStart + (flat (s.objs ++ Segment.groupObjs blocks footer)).length := by
          rw [flat_append, List.length_append, ← Nat.add_assoc]
          rfl
        refine ⟨hwhole, hgoes.has, fun _ => hend.subst (motive := fun e => Goes _ e _) hgoes, ?_⟩
        intro hyes
        refine absurd (hclosing.symm.trans (Eq.trans ?_ hyes)) (by simp)
        simp only
        split
        next => rw [feed_closing]; rfl
        next => rfl
    next => simp at hstep

/-- **A step keeps the invariant.** -/
theorem step_sound {event : Event codec history} (h : s.Sound)
    (hstep : s.step config event = some s') : s'.Sound := by
  cases event with
  | made blocks footer torn idle kept => exact made_sound h hstep
  | durable end_ =>
    cases hstep
    refine h.feed rfl ?_ ?_
    · intro hopen
      exact (h.goes hopen).flags ⟨rfl, rfl, rfl, rfl, rfl⟩ (.inr rfl) id (fun hno => .inr (.inr hno))
    · intro hclosed
      exact ⟨rfl, rfl, h.closed hclosed⟩
  | reported end_ =>
    cases hstep
    refine h.feed rfl ?_ ?_
    · intro hopen
      exact (h.goes hopen).flags ⟨rfl, rfl, rfl, rfl, rfl⟩ (.inr rfl) id (fun hno => .inr (.inr hno))
    · intro hclosed
      exact ⟨rfl, rfl, h.closed hclosed⟩
  | touch =>
    simp only [Segment.step] at hstep
    split at hstep
    next =>
      cases hstep
      exact h
    next hopen =>
      cases hstep
      refine h.feed rfl ?_ ?_
      · intro hno
        exact (h.goes hno).flags ⟨rfl, rfl, rfl, rfl, rfl⟩ (.inr rfl) id (by simp)
      · intro hclosed
        exact absurd (.inl hclosed) hopen
  | establish readers =>
    simp only [Segment.step] at hstep
    split at hstep
    next =>
      cases hstep
      refine h.feed rfl ?_ ?_
      · intro hopen
        exact (h.goes hopen).flags ⟨rfl, rfl, rfl, rfl, rfl⟩ (.inr rfl) id
          (fun hno => .inr (.inr hno))
      · intro hclosed
        exact ⟨rfl, rfl, h.closed hclosed⟩
    next hopen =>
      have hgoes := h.goes (eq_false_of_ne_true (not_or.mp hopen).1)
      split at hstep
      next =>
        cases hstep
        refine h.feed rfl ?_ (fun hclosed => absurd (.inl hclosed) hopen)
        intro _
        exact hgoes.flags ⟨rfl, rfl, rfl, rfl, rfl⟩ (.inr rfl) id (by simp)
      next =>
        split at hstep
        next =>
          cases hstep
          refine h.feed rfl ?_ (fun hclosed => absurd (.inl hclosed) hopen)
          intro _
          exact hgoes.flags ⟨rfl, rfl, rfl, rfl, rfl⟩ (.inl rfl) id (fun _ => .inl rfl)
        next =>
          cases hstep
          refine h.feed rfl ?_ (fun hclosed => absurd (.inl hclosed) hopen)
          intro _
          exact hgoes.flags ⟨rfl, rfl, rfl, rfl, rfl⟩ (.inr rfl) id (fun hno => .inr (.inr hno))
  | copy answers =>
    simp only [Segment.step] at hstep
    split at hstep
    next => simp at hstep
    next hopen =>
      cases hstep
      refine h.feed ?_ ?_ (fun hclosed => absurd hclosed hopen)
      · exact copy_closing
      · intro hno
        exact (h.goes hno).copy h.whole
  | catchUp target answers =>
    cases hstep
    refine h.feed ?_ ?_ ?_
    · exact catchUp_closing
    · intro hno
      exact (h.goes hno).catchUp h.whole
    · intro hclosed
      have hnone : s.feed.catchUp config target answers = s.feed := if_pos (.inl hclosed)
      rw [hnone]
      exact ⟨rfl, rfl, h.closed hclosed⟩
  | seal_ =>
    simp only [Segment.step] at hstep
    split at hstep
    next =>
      cases hstep
      exact h
    next hopen =>
      cases hstep
      refine h.feed rfl ?_ (fun hclosed => absurd (.inl hclosed) hopen)
      intro hno
      exact (h.goes hno).flags ⟨rfl, rfl, rfl, rfl, rfl⟩ (.inr rfl) (fun _ => rfl)
        (fun _ => .inr (.inl rfl))
  | close =>
    simp only [Segment.step] at hstep
    split at hstep
    next => simp at hstep
    next =>
      cases hstep
      obtain ⟨place, hhas⟩ := h.has
      have hdone := @Has.publish codec history s.objs place s.feed.readable _ _ hhas
      exact ⟨h.whole, ⟨place, hdone.unheld⟩, by simp [Feed.publish], fun _ => rfl⟩

theorem reachable_sound (h : (Segment.system codec history config).Reachable s) : s.Sound := by
  refine Lib.System.Run.invariant (I := Segment.Sound) ?_ ?_ h
  · rintro s rfl
    exact sound_init
  · intro s event s' _ hs _ hstep
    exact step_sound hs hstep

/-! ## The same run, read back -/

/-- **A run that a feed made and one that a read of the same bytes made are the same run**: they
    cover the same bytes, describe the same blocks, and give the same batch for each. Their parts may
    be cut differently. -/
structure SameRun (fed read : Run) : Prop where
  begin_ : fed.begin_ = read.begin_
  size : fed.size = read.size
  bytes : fed.bytes = read.bytes
  table : fed.blocks.map RunBlock.described = read.blocks.map RunBlock.described
  batches : ∀ i, fed.batch i = read.batch i

/-- Blocks that lie in a run each go on from the one before, in offsets and in records. -/
def Gapless : Nat → Nat → List RunBlock → Prop
  | _, _, [] => True
  | logical, physical, block :: rest =>
    block.logical.begin_ = logical ∧ block.physical.begin_ = physical
      ∧ logical < block.logical.end_ ∧ Gapless block.logical.end_ block.physical.end_ rest

theorem gapless_described {blocks : List RunBlock} :
    ∀ {logical physical : Nat}, Gapless logical physical (blocks.map RunBlock.described)
      → Gapless logical physical blocks := by
  induction blocks with
  | nil => exact fun h => h
  | cons block rest ih =>
    intro logical physical h
    exact ⟨h.1, h.2.1, h.2.2.1, ih h.2.2.2⟩

theorem continues_gapless {begin_ : Nat} :
    ∀ {logical physical position : Nat}, Continues logical physical position objs →
      Gapless logical physical ((blocksOf objs).map (Laid.row begin_)) := by
  induction objs with
  | nil =>
    intro logical physical position _
    trivial
  | cons o rest ih =>
    intro logical physical position h
    cases o with
    | footer laid => exact ih (by exact h)
    | block laid =>
      obtain ⟨hl, hp, _, hlt, _, _, h⟩ := h
      exact ⟨hl, hp, hlt, ih h⟩

/-- A table's row names a batch inside its block. -/
theorem Filled.batch_within {run : Run} (h : Filled run objs) {block : RunBlock} (hmem : block ∈ run.blocks) :
    block.batchOffset + block.batchBytes ≤ block.bytes := by
  have hrow : block.described ∈ (blocksOf objs).map (Laid.row run.begin_) := by
    rw [← h.table]
    exact List.mem_map_of_mem hmem
  obtain ⟨laid, _, hlaid⟩ := List.mem_map.mp hrow
  have h₁ : laid.headerBytes + segmentBlockFixedBytes = block.batchOffset :=
    congrArg RunBlock.batchOffset hlaid
  have h₂ : laid.bodyBytes - segmentBlockFixedBytes - laid.paddingBytes = block.batchBytes :=
    congrArg RunBlock.batchBytes hlaid
  have h₃ : laid.bytes.length = block.bytes := congrArg RunBlock.bytes hlaid
  have := laid.encoded
  have := laid.body
  omega

/-- **Two runs of one stretch are the same run.** -/
theorem Filled.same {run run' : Run} (h : Filled run objs) (h' : Filled run' objs)
    (hbegin : run.begin_ = run'.begin_) : SameRun run run' := by
  have hbytes : run.bytes = run'.bytes := h.bytes.trans h'.bytes.symm
  have htable : run.blocks.map RunBlock.described = run'.blocks.map RunBlock.described := by
    rw [h.table, h'.table, hbegin]
  refine ⟨hbegin, ?_, hbytes, htable, ?_⟩
  · rw [h.parts.size, h'.parts.size, hbytes]
  · intro i
    have hat : run.blocks[i]?.map RunBlock.described = run'.blocks[i]?.map RunBlock.described := by
      rw [← List.getElem?_map, ← List.getElem?_map, htable]
    cases hi : run.blocks[i]? with
    | none =>
      have hi' : run'.blocks[i]? = none := by
        rw [hi] at hat
        simpa using hat.symm
      simp only [Run.batch, hi, hi']
    | some block =>
      rw [hi] at hat
      obtain ⟨block', hi', hsame⟩ := Option.map_eq_some_iff.mp hat.symm
      rw [h.parts.batch_eq hi (h.batch_within (List.mem_of_getElem? hi)),
        h'.parts.batch_eq hi' (h'.batch_within (List.mem_of_getElem? hi')), hbytes]
      have h₁ : block'.offset = block.offset := (congrArg RunBlock.offset hsame :)
      have h₂ : block'.batchOffset = block.batchOffset := (congrArg RunBlock.batchOffset hsame :)
      have h₃ : block'.batchBytes = block.batchBytes := (congrArg RunBlock.batchBytes hsame :)
      rw [h₁, h₂, h₃]

theorem filled_deviceRun {begin_ logical physical : Nat} (hcont : Continues logical physical begin_ objs)
    (hroom : (blocksOf objs).length ≤ maximumRunBlocks) : Filled (deviceRun begin_ objs) objs := by
  have hbytes : (deviceRun begin_ objs).bytes = flat objs := by
    simp [deviceRun, Run.bytes]
  refine ⟨⟨?_, ?_, ?_⟩, hbytes, ?_, ?_⟩
  · intro k part hk
    cases k with
    | zero =>
      obtain rfl : (⟨0, flat objs⟩ : Part) = part := by simpa [deviceRun] using hk
      rfl
    | succ k => simp [deviceRun] at hk
  · rw [hbytes]
    rfl
  · intro block hmem
    obtain ⟨laid, hlaid, rfl⟩ := List.mem_map.mp hmem
    obtain ⟨hfrom, hto⟩ := continues_within hcont laid hlaid
    refine ⟨⟨0, flat objs⟩, rfl, Nat.zero_le _, ?_⟩
    show laid.records.bytes.begin_ - begin_ + laid.bytes.length ≤ 0 + (flat objs).length
    omega
  · simp only [deviceRun, List.map_map]
    apply List.map_congr_left
    intro laid _
    rfl
  · simpa [deviceRun] using hroom

/-- **A published run, read back.** -/
theorem read_back (hwhole : Whole s.objs) {p : Published} (h : Delivered s.objs p) :
    p.run.bytes = s.read p.run.begin_ p.run.size
      ∧ ∃ start checked, segmentRunAt history p.base p.run.begin_ = some start
        ∧ Gapless start.base start.physical p.run.blocks
        ∧ checkSegmentRun codec history start true (s.read p.run.begin_ p.run.size)
          = .ok ⟨checked, none⟩
        ∧ SameRun p.run checked := by
  obtain ⟨mid, pre, post, first, hobjs, hhead, hbase, hbegin, hfilled⟩ := h.run
  have hend := hfilled.end_eq
  have hholds := h.holds
  -- the run is not empty, so the block it begins with is its first
  obtain ⟨rest, rfl⟩ : ∃ rest, mid = .block first :: rest := by
    cases mid with
    | nil =>
      rw [flat_nil, List.length_nil] at hend
      omega
    | cons o rest =>
      obtain rfl : o = .block first := by simpa using hhead
      exact ⟨rest, rfl⟩
  have hread : s.read p.run.begin_ p.run.size = flat (.block first :: rest) := by
    unfold Segment.read
    have hsize : p.run.size = (flat (.block first :: rest)).length := by
      rw [hfilled.parts.size, hfilled.bytes]
    rw [hbegin, Nat.add_sub_cancel_left, hobjs, flat_append, flat_append]
    exact bytesAt_mid hsize
  have hcont := hwhole.at_ hobjs
  rw [← hbegin] at hcont
  have hlogical : logicalEnd history.logicalOrigin pre = p.base := by
    rw [← hbase]
    exact hcont.1.symm
  have hpre : Whole pre := by
    unfold Whole at hwhole ⊢
    rw [hobjs, continues_append] at hwhole
    exact hwhole.1
  obtain ⟨hle, hdense⟩ := continues_dense hpre
  rw [hlogical] at hle hdense hcont
  have hfits : physicalEnd history.physicalOrigin pre ≤ u64Max := by
    have h₁ := first.fits
    have h₂ := hcont.2.2.2.2.2.1
    omega
  have hstart : segmentRunAt history p.base p.run.begin_
      = some ⟨p.run.begin_, p.base, physicalEnd history.physicalOrigin pre⟩ := by
    unfold segmentRunAt
    rw [if_neg (by omega), if_neg (by rw [← hdense]; omega), hdense]
  have hroom : (blocksOf (.block first :: rest)).length ≤ maximumRunBlocks := by
    have hlength := congrArg List.length hfilled.table
    rw [List.length_map, List.length_map] at hlength
    rw [← hlength]
    exact hfilled.room
  refine ⟨hfilled.bytes.trans hread.symm, _, _, hstart, ?_, ?_,
    hfilled.same (filled_deviceRun hcont hroom) rfl⟩
  · apply gapless_described
    rw [hfilled.table]
    exact continues_gapless hcont
  · have hat : history.dataStart ≤ p.run.begin_ := by omega
    rw [hread]
    exact @checkSegmentRun_objs codec history ⟨_, _, _⟩ first rest hcont hat hroom

/-- **Fed runs are device runs.** Whatever is noted, fed, reported durable or readable, wanted,
    lapsed, refused or thrown, and wherever the segment is sealed or its feed closed: every run the
    feed has published lay below what could be read when it was, is a gapless stretch of the file,
    and is the run that `check_segment_run` makes of that stretch read back whole; and no two of
    them overlap. -/
theorem published_as_read (h : (Segment.system codec history config).Reachable s) :
    (∀ p ∈ s.feed.published,
      p.run.begin_ < p.run.end_ ∧ p.run.end_ ≤ p.readable
        ∧ p.run.bytes = s.read p.run.begin_ p.run.size
        ∧ ∃ start checked, segmentRunAt history p.base p.run.begin_ = some start
          ∧ Gapless start.base start.physical p.run.blocks
          ∧ checkSegmentRun codec history start true (s.read p.run.begin_ p.run.size)
            = .ok ⟨checked, none⟩
          ∧ SameRun p.run checked)
      ∧ s.feed.published.Pairwise fun a b => a.run.end_ ≤ b.run.begin_ := by
  have hsound := reachable_sound h
  obtain ⟨place, hhas⟩ := hsound.has
  refine ⟨?_, ?_⟩
  · intro p hp
    have hdelivered := hhas.delivered p hp
    exact ⟨hdelivered.holds, hdelivered.below, read_back hsound.whole hdelivered⟩
  · have hordered := (List.pairwise_append.mp hhas.ordered).1
    rwa [List.pairwise_map] at hordered

end Runs

/-! ## A plain segment -/

theorem plain_extents (raw : List UInt8) (length : Nat)
    (h : (if headerBytes raw = 32 ∧ 32 ≤ 32 * raw[1]!.toNat then .ok (32 * raw[1]!.toNat)
      else .error ⟨.malformedData, false⟩ : Except PrefixError Nat) = .ok length) :
    envelopePrefixBytes ≤ headerBytes raw ∧ headerBytes raw ≤ length := by
  split at h
  next hheader =>
    cases h
    exact ⟨hheader.1.ge, hheader.1.le.trans hheader.2⟩
  next => cases h

/-- A codec of objects that say how many units of 32 bytes they are, and which record they keep. -/
def plainRuns : RunCodec where
  peekPrefix raw :=
    if headerBytes raw = 32 ∧ 32 ≤ 32 * raw[1]!.toNat then .ok (32 * raw[1]!.toNat)
    else .error ⟨.malformedData, false⟩
  headerCrc _ := true
  extents := plain_extents
  family raw := raw[0]!.toNat
  checkBlock bytes e :=
    let record := bytes[2]!.toNat
    .ok ⟨⟨⟨record, record + 1⟩, ⟨e.location.physicalBegin, e.location.physicalBegin + 1⟩,
      ⟨e.location.position, e.location.position + bytes.length⟩⟩, 176, bytes.length - 176⟩

theorem plain_segment_pos : 0 < 32 := by decide

def plainSegmentHistory : History where
  segment := ⟨1, 2, 3, 4, 5⟩
  alignment := 32
  dataStart := 32
  logicalOrigin := 0
  physicalOrigin := 0
  alignment_pos := plain_segment_pos
  logical_fits := Nat.zero_le _
  physical_fits := Nat.zero_le _

/-- An object's bytes. -/
def plainObject (family units record : UInt8) : List UInt8 :=
  [family, units, record, 0, 0, 0, 0, 0, 0, 0, 32, 0] ++ List.replicate (32 * units.toNat - 12) record

/-- Blocks of one record, the second behind the footer of the first. -/
def plainLaid (second : Bool) : Laid plainRuns plainSegmentHistory where
  records := ⟨⟨second.toNat, second.toNat + 1⟩, ⟨second.toNat, second.toNat + 1⟩,
    ⟨32 + 224 * second.toNat, 224 + 224 * second.toNat⟩⟩
  headerBytes := 32
  bodyBytes := 160
  paddingBytes := 0
  bytes := plainObject 4 6 (if second then 1 else 0)
  encoded := by cases second <;> decide +kernel
  body := by decide
  span := by cases second <;> decide +kernel
  fits := by cases second <;> decide +kernel
  written := by cases second <;> rfl
  peeked := by cases second <;> decide +kernel
  family := by cases second <;> rfl
  checked := by cases second <;> decide +kernel

def plainRunFooter : LaidFooter plainRuns where
  bytes := plainObject 6 1 0
  written := rfl
  peeked := rfl
  family := rfl
  crc := rfl

/-- Two groups of one block each, taken while only the first may be read. -/
def plainEvents : List (Event plainRuns plainSegmentHistory) :=
  [.touch, .made [(plainLaid false, true)] (some plainRunFooter) false false true,
    .made [(plainLaid true, true)] none false false true, .copy [], .copy [],
    .durable 300, .copy []]

def plainConfig : Config := ⟨4096, 4096, true⟩

theorem plain_published : ∃ s, (Segment.system plainRuns plainSegmentHistory plainConfig).Reachable s
    ∧ s.feed.published.map (fun p => (p.run.begin_, p.run.end_)) = [(32, 256)]
    ∧ ∀ p ∈ s.feed.published, ∃ start checked,
      checkSegmentRun plainRuns plainSegmentHistory start true (s.read p.run.begin_ p.run.size)
        = .ok ⟨checked, none⟩ ∧ SameRun p.run checked := by
  have hrun : ((Segment.system plainRuns plainSegmentHistory plainConfig).exec {} plainEvents).map
      (fun s => s.feed.published.map fun p => (p.run.begin_, p.run.end_)) = some [(32, 256)] := by
    decide +kernel
  obtain ⟨s, hs, hpublished⟩ := Option.map_eq_some_iff.mp hrun
  have hreached := Lib.System.Run.of_exec (.init rfl) hs
  refine ⟨s, hreached, hpublished, ?_⟩
  intro p hp
  obtain ⟨_, _, _, start, checked, _, _, hcheck, hsame⟩ := (published_as_read hreached).1 p hp
  exact ⟨start, checked, hcheck, hsame⟩

end KwaqueStorage.SegmentRun
