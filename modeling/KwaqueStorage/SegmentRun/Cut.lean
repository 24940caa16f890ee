import KwaqueStorage.SegmentRun.Fed

/-!
# A stretch read in part

A read for one reader alone takes as many bytes as one read holds, from a place where an object
begins, and may end inside one; past what was appended a file holds zeroes. The walk of
`check_segment_run` over such bytes takes complete objects of the file, one after another, and
nothing else. Where the start names the wrong block the first block fails its check.
-/

namespace KwaqueStorage.SegmentRun

open Scan Extent

variable {codec : RunCodec} {history : History}

/-- **A block says itself where it lies and what it keeps**, so two checks of one block's bytes that
    both pass agree, whatever each of them expected. -/
def RunCodec.Stated (codec : RunCodec) : Prop :=
  ∀ bytes e e' c c', codec.checkBlock bytes e = .ok c → codec.checkBlock bytes e' = .ok c' → c = c'

/-- The encoded batch that was appended in a block. -/
def Laid.batch (laid : Laid codec history) : List UInt8 :=
  bytesAt laid.bytes (laid.headerBytes + segmentBlockFixedBytes)
    (laid.bodyBytes - segmentBlockFixedBytes - laid.paddingBytes)

/-- **A run shows a stretch**: it ends with it, has a row for each of its blocks, and gives the batch
    that was appended in each. -/
structure Shows (run : Run) (mid : List (Obj codec history)) : Prop where
  end_ : run.end_ = run.begin_ + (flat mid).length
  table : run.blocks.map RunBlock.described = (blocksOf mid).map (Laid.row run.begin_)
  batches : ∀ i laid, (blocksOf mid)[i]? = some laid → run.batch i = some laid.batch

/-! ## The object at a walk's place -/

section Object

variable {start : RunStart} {whole : Bool} {bytes : List UInt8} {w : Walked}

/-- A refusal is one whatever the header's checksum says. -/
theorem headed_refused {why : Errc} {length : Nat} :
    ∃ code, headed codec whole bytes w (some why) length = .error code := by
  unfold headed
  simp only
  split
  next => exact ⟨_, rfl⟩
  next =>
    split
    next => exact ⟨_, rfl⟩
    next => exact ⟨_, rfl⟩

/-- What a walk may make of an object whose bytes, or the first of them, lie where it stands. -/
def Finds (o : Obj codec history) (t : List UInt8) (w : Walked) : Except Errc Object → Prop
  | .error _ => True
  | .ok (.stop _) => True
  | .ok (.footer length) => length = o.bytes.length ∧ o.laid? = none ∧ o.bytes <+: t
  | .ok (.block length checked) => ∃ laid, o = .block laid ∧ length = o.bytes.length
      ∧ checked = laid.check ∧ o.bytes <+: t ∧ w.blocks.length < maximumRunBlocks
      ∧ (w.blocks = [] → laid.records.logical.begin_ = w.logical)

theorem take_of_prefix {t o rest : List UInt8} {n : Nat} (ht : t <+: o ++ rest)
    (hn : n ≤ t.length) (ho : n ≤ o.length) : t.take n = o.take n := by
  obtain ⟨u, hu⟩ := ht
  have hsame := congrArg (List.take n) hu
  rwa [List.take_append_of_le_length hn, List.take_append_of_le_length ho] at hsame

theorem headed_footer {o : Obj codec history} {t : List UInt8} {length : Nat}
    (hlength : length = o.bytes.length) (hfooter : o.laid? = none) (hall : o.bytes <+: t) :
    Finds o t w (headed codec whole bytes w none length) := by
  unfold headed
  simp only
  split
  next => trivial
  next =>
    split
    next => trivial
    next =>
      split
      next => trivial
      next => exact ⟨hlength, hfooter, hall⟩

/-- **Where an object of the file begins a walk finds that object**, or stops. -/
theorem objectAt_finds (hstated : codec.Stated) {o : Obj codec history} {a t rest : List UInt8}
    (ht : t <+: o.bytes ++ rest) (hw : w.offset = a.length)
    (hmax : w.blocks.length ≤ maximumRunBlocks) :
    Finds o t w (objectAt codec history start whole (a ++ t) w) := by
  have hfront := o.prefix_le
  have hremaining : (a ++ t).length - w.offset = t.length := by
    rw [List.length_append, hw]
    omega
  by_cases hshort : t.length < envelopePrefixBytes
  · have herror : objectAt codec history start whole (a ++ t) w = .error .malformedData := by
      refine if_pos ?_
      rw [hremaining]
      exact hshort
    rw [herror]
    trivial
  have hraw : bytesAt (a ++ t) w.offset envelopePrefixBytes
      = o.bytes.take envelopePrefixBytes := by
    unfold bytesAt
    rw [hw, List.drop_left]
    exact take_of_prefix ht (not_lt.mp hshort) hfront
  simp only [objectAt, hraw, hremaining, o.peeked.1, o.peeked.2]
  rw [if_neg hshort, if_neg (by simp)]
  by_cases hlong : o.bytes.length > t.length
  · rw [if_pos hlong]
    split
    next =>
      obtain ⟨code, hcode⟩ := @headed_refused codec whole (a ++ t) w .malformedData 0
      rw [hcode]
      trivial
    next => trivial
  have hall : o.bytes <+: t :=
    List.prefix_of_prefix_length_le (List.prefix_append _ _) ht (not_lt.mp hlong)
  have hobject : bytesAt (a ++ t) w.offset o.bytes.length = o.bytes := by
    unfold bytesAt
    rw [hw, List.drop_left]
    exact (List.prefix_iff_eq_take.mp hall).symm
  rw [if_neg hlong]
  cases o with
  | footer laid =>
    have hfamily : codec.family ((Obj.footer laid : Obj codec history).bytes.take
        envelopePrefixBytes) = footerFamily := laid.family
    rw [if_pos hfamily]
    exact headed_footer rfl rfl hall
  | block laid =>
    have hfamily : codec.family ((Obj.block laid).bytes.take envelopePrefixBytes) = blockFamily :=
      laid.family
    rw [if_neg (by rw [hfamily]; decide), if_neg (by simp [hfamily])]
    split
    next =>
      split
      next => trivial
      next => trivial
    next hroom =>
      rw [hobject]
      cases hcheck : codec.checkBlock (Obj.block laid).bytes
          (blockExpectation history start w) with
      | error why => trivial
      | ok checked =>
        obtain rfl : checked = laid.check := hstated _ _ _ _ _ hcheck laid.checked
        by_cases hbegins : if w.blocks.isEmpty then laid.check.coverage.logical.begin_ ≠ w.logical
            else laid.check.coverage.logical.begin_ < w.logical
        · simp only
          rw [if_pos hbegins]
          trivial
        · simp only
          rw [if_neg hbegins]
          refine ⟨laid, rfl, rfl, rfl, hall, by omega, ?_⟩
          intro hfirst
          simp only [hfirst, List.isEmpty_nil, if_true, ne_eq, not_not] at hbegins
          exact hbegins

/-- Zeroes are no object. -/
theorem objectAt_zeroes {a t : List UInt8} (hzero : ∀ b ∈ t, b = 0) (hw : w.offset = a.length) :
    objectAt codec history start whole (a ++ t) w = .error .malformedData := by
  have hremaining : (a ++ t).length - w.offset = t.length := by
    rw [List.length_append, hw]
    omega
  unfold objectAt
  simp only [hremaining]
  split
  next => rfl
  next =>
    refine if_pos ?_
    unfold bytesAt
    rw [hw, List.drop_left, List.all_eq_true]
    intro b hb
    simpa using hzero b (List.mem_of_mem_take hb)

end Object

/-! ## A walk over part of a file -/

section Walk

variable {start : RunStart} {whole : Bool}

/-- What a walk that began at `w` took: complete objects, the first block the one it asked for. -/
def Walks (start : RunStart) (objs : List (Obj codec history)) (t : List UInt8) (w : Walked) :
    Except Errc (Walked × Option Nat) → Prop
  | .error _ => True
  | .ok (w', _) => ∃ mid rest, objs = mid ++ rest ∧ flat mid <+: t
      ∧ w'.blocks = w.blocks ++ (blocksOf mid).map (Laid.row start.position)
      ∧ w'.offset = w.offset + (flat mid).length ∧ w'.blocks.length ≤ maximumRunBlocks
      ∧ (w.blocks = [] → ∀ first, (blocksOf mid).head? = some first →
        first.records.logical.begin_ = w.logical)

theorem Walks.stay {objs : List (Obj codec history)} {t : List UInt8} {w : Walked}
    {cut : Option Nat} (hmax : w.blocks.length ≤ maximumRunBlocks) :
    Walks start objs t w (.ok (w, cut)) :=
  ⟨[], objs, rfl, List.nil_prefix, by simp, rfl, hmax, by simp⟩

theorem Walks.footer {laid : LaidFooter codec} {rest : List (Obj codec history)} {t : List UInt8}
    {w : Walked} {result : Except Errc (Walked × Option Nat)}
    (h : Walks start rest t { w with offset := w.offset + laid.bytes.length } result) :
    Walks start (.footer laid :: rest) (laid.bytes ++ t) w result := by
  cases result with
  | error why => trivial
  | ok out =>
    obtain ⟨mid, after, rfl, hfront, hblocks, hoffset, hmax, hfirst⟩ := h
    refine ⟨.footer laid :: mid, after, rfl, ?_, hblocks, ?_, hmax, hfirst⟩
    · rw [flat_cons]
      exact (List.prefix_append_right_inj _).mpr hfront
    · rw [hoffset, flat_cons, List.length_append, Nat.add_assoc]
      rfl

theorem Walks.block {laid : Laid codec history} {rest : List (Obj codec history)} {t : List UInt8}
    {w : Walked} {result : Except Errc (Walked × Option Nat)}
    (hfirst : w.blocks = [] → laid.records.logical.begin_ = w.logical)
    (h : Walks start rest t
      ⟨w.blocks ++ [laid.row start.position], w.offset + laid.bytes.length,
        laid.records.logical.end_, laid.records.physical.end_⟩ result) :
    Walks start (.block laid :: rest) (laid.bytes ++ t) w result := by
  cases result with
  | error why => trivial
  | ok out =>
    obtain ⟨mid, after, rfl, hfront, hblocks, hoffset, hmax, _⟩ := h
    refine ⟨.block laid :: mid, after, rfl, ?_, ?_, ?_, hmax, ?_⟩
    · rw [flat_cons]
      exact (List.prefix_append_right_inj _).mpr hfront
    · rw [hblocks]
      simp
    · rw [hoffset, flat_cons, List.length_append, Nat.add_assoc]
      rfl
    · intro hnone first hhead
      obtain rfl : laid = first := by simpa using hhead
      exact hfirst hnone

/-- **A walk over the first bytes of a stretch takes complete objects of it.** The induction is on
    the objects that are left, as it is for a stretch that is read whole. -/
theorem walkRun_front (hstated : codec.Stated) {zeroes : List UInt8}
    (hzero : ∀ b ∈ zeroes, b = 0) {objs : List (Obj codec history)} :
    ∀ {left : Nat} {a t : List UInt8} {w : Walked} {logical physical : Nat},
      t <+: flat objs ++ zeroes → w.offset = a.length → w.blocks.length ≤ maximumRunBlocks →
      Continues logical physical (start.position + w.offset) objs →
      Walks start objs t w (walkRun codec history start whole (a ++ t) left w) := by
  induction objs with
  | nil =>
    intro left a t w logical physical ht hw hmax _
    cases left with
    | zero => exact Walks.stay hmax
    | succ left =>
      by_cases hend : (a ++ t).length ≤ w.offset
      · rw [walkRun_end hend]
        exact Walks.stay hmax
      · have hall : ∀ b ∈ t, b = 0 := by
          intro b hb
          exact hzero b (ht.subset hb)
        unfold walkRun
        rw [if_neg hend, objectAt_zeroes hall hw]
        trivial
  | cons o rest ih =>
    intro left a t w logical physical ht hw hmax hcont
    cases left with
    | zero => exact Walks.stay hmax
    | succ left =>
      by_cases hend : (a ++ t).length ≤ w.offset
      · rw [walkRun_end hend]
        exact Walks.stay hmax
      have hmore := not_le.mp hend
      rw [flat_cons, List.append_assoc] at ht
      have hfinds := @objectAt_finds codec history start whole w hstated o a t _ ht hw hmax
      cases hat : objectAt codec history start whole (a ++ t) w with
      | error why =>
        unfold walkRun
        rw [if_neg hend, hat]
        trivial
      | ok object =>
        rw [hat] at hfinds
        cases object with
        | stop cut =>
          unfold walkRun
          rw [if_neg hend, hat]
          exact Walks.stay hmax
        | footer length =>
          obtain ⟨rfl, hfooter, t', rfl⟩ := hfinds
          rw [walkRun_footer hmore hat, ← List.append_assoc]
          cases o with
          | block laid => cases hfooter
          | footer laid =>
            apply Walks.footer
            refine @ih left _ t' _ logical physical ((List.prefix_append_right_inj _).mp ht) ?_ hmax ?_
            · simp only [List.length_append, hw, Obj.bytes]
            · rw [← Nat.add_assoc]
              exact hcont
        | block length checked =>
          obtain ⟨laid, rfl, rfl, rfl, ⟨t', rfl⟩, hroom, hfirst⟩ := hfinds
          obtain ⟨_, _, hplace, _, _, _, hcont⟩ := hcont
          rw [walkRun_block hmore hat, ← List.append_assoc]
          apply Walks.block hfirst
          have hrow : rowOf w.offset laid.bytes.length laid.check = laid.row start.position :=
            laid.rowOf_check hplace
          rw [show (Obj.block laid).bytes = laid.bytes from rfl, hrow]
          refine @ih left _ t' _ laid.records.logical.end_ laid.records.physical.end_
            ((List.prefix_append_right_inj _).mp ht) ?_ ?_ ?_
          · simp only [List.length_append, hw]
          · simp only [List.length_append, List.length_singleton]
            omega
          · rw [← Nat.add_assoc]
            exact hcont

end Walk

/-! ## The batches of a stretch -/

section Batches

variable {mid : List (Obj codec history)} {logical physical begin_ : Nat}

theorem mem_blocksOf {laid : Laid codec history} (h : laid ∈ blocksOf mid) :
    ∃ a b, mid = a ++ .block laid :: b := by
  unfold blocksOf at h
  rw [List.mem_filterMap] at h
  obtain ⟨o, hmem, ho⟩ := h
  cases o with
  | footer footer => cases ho
  | block found =>
    obtain rfl : found = laid := by simpa [Obj.laid?] using ho
    obtain ⟨a, b, rfl⟩ := List.append_of_mem hmem
    exact ⟨a, b, rfl⟩

theorem bytesAt_inside {a o rest : List UInt8} {off n : Nat} (h : off + n ≤ o.length) :
    bytesAt (a ++ (o ++ rest)) (a.length + off) n = bytesAt o off n := by
  unfold bytesAt
  rw [← List.drop_drop, List.drop_left, List.drop_append_of_le_length (by omega),
    List.take_append_of_le_length (by rw [List.length_drop]; omega)]

theorem Laid.batch_fits (laid : Laid codec history) :
    laid.headerBytes + segmentBlockFixedBytes
      + (laid.bodyBytes - segmentBlockFixedBytes - laid.paddingBytes) ≤ laid.bytes.length := by
  have h₁ := laid.encoded
  have h₂ := laid.body
  omega

theorem Laid.length_batch (laid : Laid codec history) :
    laid.batch.length = laid.bodyBytes - segmentBlockFixedBytes - laid.paddingBytes := by
  have h := laid.batch_fits
  unfold Laid.batch bytesAt
  rw [List.length_take, List.length_drop]
  omega

/-- **A batch lies where its row says**, in the bytes of its stretch and whatever follows them. -/
theorem batch_in (hcont : Continues logical physical begin_ mid) {laid : Laid codec history}
    (hmem : laid ∈ blocksOf mid) (t : List UInt8) :
    bytesAt (flat mid ++ t) ((laid.row begin_).offset + (laid.row begin_).batchOffset)
        (laid.row begin_).batchBytes = laid.batch
      ∧ (laid.row begin_).offset + (laid.row begin_).batchOffset + (laid.row begin_).batchBytes
        ≤ (flat mid ++ t).length := by
  obtain ⟨a, b, rfl⟩ := mem_blocksOf hmem
  rw [continues_append] at hcont
  have hbegin : laid.records.bytes.begin_ = begin_ + (flat a).length := hcont.2.2.2.1
  have hoffset : (laid.row begin_).offset = (flat a).length := by
    show laid.records.bytes.begin_ - begin_ = _
    omega
  have hflat : flat (a ++ .block laid :: b) ++ t = flat a ++ (laid.bytes ++ (flat b ++ t)) := by
    simp [Obj.bytes]
  have hfits := laid.batch_fits
  rw [hoffset, hflat]
  refine ⟨?_, ?_⟩
  · exact bytesAt_inside hfits
  · simp only [List.length_append, Laid.row]
    omega

/-- A run that holds a stretch shows it. -/
theorem Filled.shows {run : Run} (h : Filled run mid)
    (hcont : Continues logical physical run.begin_ mid) : Shows run mid := by
  refine ⟨h.end_eq, h.table, ?_⟩
  intro i laid hi
  have hrow : (run.blocks.map RunBlock.described)[i]? = some (laid.row run.begin_) := by
    rw [h.table, List.getElem?_map, hi]
    rfl
  rw [List.getElem?_map] at hrow
  obtain ⟨block, hblock, hdescribed⟩ := Option.map_eq_some_iff.mp hrow
  have hmem := List.mem_of_getElem? hi
  have hfits := laid.batch_fits
  have h₁ : block.offset = (laid.row run.begin_).offset := (congrArg RunBlock.offset hdescribed :)
  have h₂ : block.batchOffset = (laid.row run.begin_).batchOffset :=
    (congrArg RunBlock.batchOffset hdescribed :)
  have h₃ : block.batchBytes = (laid.row run.begin_).batchBytes :=
    (congrArg RunBlock.batchBytes hdescribed :)
  have h₄ : block.bytes = laid.bytes.length := (congrArg RunBlock.bytes hdescribed :)
  have hin : block.batchOffset + block.batchBytes ≤ block.bytes := by
    rw [h₂, h₃, h₄]
    exact hfits
  rw [h.parts.batch_eq hblock hin, h₁, h₂, h₃, h.bytes]
  have hbatch := (batch_in hcont hmem []).1
  rw [List.append_nil] at hbatch
  rw [hbatch]

/-- The run of what a walk took: complete objects, with a row for each of their blocks. -/
theorem checkSegmentRun_walked {start : RunStart} {whole : Bool} {t : List UInt8} {w : Walked}
    {cut : Option Nat} (hne : flat mid ++ t ≠ []) (hstart : history.dataStart ≤ start.position)
    (hcont : Continues logical physical start.position mid)
    (hwalk : walkRun codec history start whole (flat mid ++ t) ((flat mid ++ t).length + 1)
      ⟨[], 0, start.base, start.physical⟩ = .ok (w, cut))
    (hblocks : w.blocks = (blocksOf mid).map (Laid.row start.position))
    (hoffset : w.offset = (flat mid).length) (hmax : w.blocks.length ≤ maximumRunBlocks) :
    ∃ run, checkSegmentRun codec history start whole (flat mid ++ t) = .ok ⟨run, cut⟩
      ∧ run.begin_ = start.position ∧ Shows run mid := by
  have hpart : ({ begin_ := start.position } : Run).addPart (flat mid ++ t)
      = some { begin_ := start.position, size := (flat mid ++ t).length,
               parts := [⟨0, flat mid ++ t⟩] } := by
    simp [Run.addPart, maximumRunParts]
  have hvalid : ¬ (flat mid ++ t = [] ∨ start.position < history.dataStart) := by
    rintro (h | h)
    · exact hne h
    · omega
  unfold checkSegmentRun
  rw [if_neg hvalid]
  simp only [hwalk, hpart, Option.bind_some]
  rw [Run.addBlocks_eq (by simp) (by simpa using hmax)]
  refine ⟨_, rfl, rfl, ?_, ?_, ?_⟩
  · simp only [Run.end_, hoffset]
  · simp only [hblocks, List.nil_append, List.map_map]
    apply List.map_congr_left
    intro laid _
    rfl
  · intro i laid hi
    obtain ⟨hbatch, hfits⟩ := batch_in hcont (List.mem_of_getElem? hi) t
    unfold Run.batch
    simp only [hblocks, List.nil_append, List.map_map, List.getElem?_map, hi, Option.map_some,
      Function.comp_apply, List.length_singleton, Nat.sub_self, List.getElem?_cons_zero,
      Nat.sub_zero]
    rw [if_pos hfits]
    exact congrArg some hbatch

/-- **What a check of part of a file makes**: a run that shows complete objects of it, from the
    place it began at, the first block the one that was asked for. -/
theorem checkSegmentRun_prefix (hstated : codec.Stated) {zeroes : List UInt8}
    (hzero : ∀ b ∈ zeroes, b = 0) {objs : List (Obj codec history)} {start : RunStart}
    {whole : Bool} {bytes : List UInt8} (hbytes : bytes <+: flat objs ++ zeroes)
    (hcont : Continues logical physical start.position objs) {checked : CheckedRun}
    (h : checkSegmentRun codec history start whole bytes = .ok checked) :
    checked.run.begin_ = start.position ∧ ∃ mid rest, objs = mid ++ rest ∧ Shows checked.run mid
      ∧ ∀ first, (blocksOf mid).head? = some first →
        first.records.logical.begin_ = start.base := by
  have hchecked := h
  unfold checkSegmentRun at h
  split at h
  next => cases h
  next hvalid =>
    obtain ⟨hne, hstart⟩ := not_or.mp hvalid
    have hwalk := @walkRun_front codec history start whole hstated zeroes hzero objs
      (bytes.length + 1) [] bytes ⟨[], 0, start.base, start.physical⟩ logical physical hbytes rfl
      (Nat.zero_le _) hcont
    rw [List.nil_append] at hwalk
    cases hresult : walkRun codec history start whole bytes (bytes.length + 1)
        ⟨[], 0, start.base, start.physical⟩ with
    | error why => simp [hresult] at h
    | ok out =>
      obtain ⟨w, cut⟩ := out
      rw [hresult] at hwalk
      obtain ⟨mid, rest, rfl, ⟨t, rfl⟩, hblocks, hoffset, hmax, hfirst⟩ := hwalk
      simp only [List.nil_append, Nat.zero_add] at hblocks hoffset
      obtain ⟨run, hrun, hbegin, hshows⟩ := checkSegmentRun_walked hne (not_lt.mp hstart)
        (continues_append.mp hcont).1 hresult hblocks hoffset hmax
      obtain rfl := Except.ok.inj (hrun.symm.trans hchecked)
      exact ⟨hbegin, mid, rest, rfl, hshows, hfirst rfl⟩

end Batches

end KwaqueStorage.SegmentRun
