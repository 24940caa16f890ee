import KwaqueStorage.SegmentRead.Exact
import KwaqueStorage.SegmentRun.Published

/-!
# A stretch read in parts

A stretch that is longer than one read is read in parts, each for its reader alone: as many bytes as
one read holds, of which the walk takes the complete objects, and the next part begins where they
end. A first object that one read does not hold is read once more, with exactly its length.

The walk needs the prefix of an object to know how long it is, and a part that ends inside a prefix
fails the whole read (`objectAt`, which asks for the prefix before anything else). Where no part does
(`Clear`) the parts are the stretch.
-/

namespace KwaqueStorage.SegmentRead

open Scan Extent SegmentRun

variable {codec : RunCodec} {history : History}

/-! ## Reading on -/

/-- What follows a run that stopped short of its stretch's end, as `read` goes on with it. -/
def resumeOf (run : Run) (start : RunStart) : Option RunStart :=
  match run.blocks.getLast? with
  | none => some ⟨run.end_, start.base, start.physical⟩
  | some _ => run.after (run.blocks.length - 1)

/-- The parts of a stretch, each read from the file or from the writer's memory, for as long as there
    are turns for them. -/
def readParts (codec : RunCodec) (history : History) (file : File) (config : Config)
    (held : Nat → Bool) (end_ : Nat) : Nat → RunStart → Option (Except Errc (List Run))
  | 0, _ => none
  | left + 1, start =>
    let part :=
      if held start.position then readHeld codec history file config start end_ none fun _ => {}
      else readAlone codec history file config start end_ end_ none fun _ => {}
    match part with
    | .error why => some (.error why)
    | .ok run =>
      if run.end_ < end_ then
        match resumeOf run start with
        | none => some (.ok [run])
        | some next =>
          (readParts codec history file config held end_ left next).map fun rest =>
            rest.map fun runs => run :: runs
      else some (.ok [run])

/-! ## Where parts end -/

/-- The objects a walk takes of the first `room` bytes, with `blocks` taken already. -/
def fits (room blocks : Nat) : List (Obj codec history) → List (Obj codec history)
  | [] => []
  | o :: rest =>
    if room < o.bytes.length then []
    else
      match o with
      | .footer _ => o :: fits (room - o.bytes.length) blocks rest
      | .block _ =>
        if blocks = maximumRunBlocks then []
        else o :: fits (room - o.bytes.length) (blocks + 1) rest

/-- The bytes do not end inside the prefix of the object the walk gets to. -/
def clear (room blocks : Nat) : List (Obj codec history) → Bool
  | [] => true
  | o :: rest =>
    if room = 0 then true
    else if room < envelopePrefixBytes then false
    else if room < o.bytes.length then true
    else
      match o with
      | .footer _ => clear (room - o.bytes.length) blocks rest
      | .block _ =>
        if blocks = maximumRunBlocks then true
        else clear (room - o.bytes.length) (blocks + 1) rest

/-- The objects of the first part: those that fit one read, or the first one. -/
def partOf (runBytes : Nat) (objs : List (Obj codec history)) : List (Obj codec history) :=
  match fits (min (flat objs).length runBytes) 0 objs with
  | [] => objs.take 1
  | o :: rest => o :: rest

/-- No offset can follow what was read. -/
def spent (mid : List (Obj codec history)) : Bool :=
  (blocksOf mid).getLast?.any fun last => decide (last.records.logical.end_ = noOffset)

theorem length_partOf {runBytes : Nat} {o : Obj codec history} {rest : List (Obj codec history)} :
    0 < (partOf runBytes (o :: rest)).length := by
  unfold partOf
  split
  next => simp
  next => simp

/-- **No part of a stretch ends inside an object's prefix.** -/
def Clear (runBytes : Nat) : List (Obj codec history) → Prop
  | [] => True
  | o :: rest =>
    clear (min (flat (o :: rest)).length runBytes) 0 (o :: rest) = true
      ∧ (spent (partOf runBytes (o :: rest)) = true
        ∨ Clear runBytes ((o :: rest).drop (partOf runBytes (o :: rest)).length))
  termination_by objs => objs.length
  decreasing_by
    have := @length_partOf codec history runBytes o rest
    rw [List.length_drop, List.length_cons]
    omega

section Fits

variable {o : Obj codec history} {rest objs : List (Obj codec history)} {room blocks : Nat}

variable {rest : List (Obj codec history)}

theorem clear_footer {laid : LaidFooter codec} {room blocks : Nat} (h : laid.bytes.length ≤ room) :
    clear room blocks (.footer laid :: rest) = clear (room - laid.bytes.length) blocks rest := by
  have hfront : envelopePrefixBytes ≤ laid.bytes.length := (Obj.footer laid : Obj codec history).prefix_le
  have hfixed : envelopePrefixBytes = 32 := rfl
  have hlong : ¬ room < (Obj.footer laid : Obj codec history).bytes.length := not_lt.mpr h
  rw [clear, if_neg (by omega), if_neg (by omega), if_neg hlong]
  rfl

theorem clear_block {laid : Laid codec history} {room blocks : Nat} (h : laid.bytes.length ≤ room) :
    clear room blocks (.block laid :: rest) = if blocks = maximumRunBlocks then true
      else clear (room - laid.bytes.length) (blocks + 1) rest := by
  have hfront : envelopePrefixBytes ≤ laid.bytes.length := (Obj.block laid).prefix_le
  have hfixed : envelopePrefixBytes = 32 := rfl
  have hlong : ¬ room < (Obj.block laid).bytes.length := not_lt.mpr h
  rw [clear, if_neg (by omega), if_neg (by omega), if_neg hlong]
  rfl

theorem fits_footer {laid : LaidFooter codec} {room blocks : Nat} (h : laid.bytes.length ≤ room) :
    fits room blocks (.footer laid :: rest)
      = .footer laid :: fits (room - laid.bytes.length) blocks rest := by
  have hlong : ¬ room < (Obj.footer laid : Obj codec history).bytes.length := not_lt.mpr h
  rw [fits, if_neg hlong]
  rfl

theorem fits_block {laid : Laid codec history} {room blocks : Nat} (h : laid.bytes.length ≤ room) :
    fits room blocks (.block laid :: rest) = if blocks = maximumRunBlocks then []
      else .block laid :: fits (room - laid.bytes.length) (blocks + 1) rest := by
  have hlong : ¬ room < (Obj.block laid).bytes.length := not_lt.mpr h
  rw [fits, if_neg hlong]
  rfl

theorem fits_before : ∀ {room blocks : Nat}, fits room blocks objs <+: objs := by
  induction objs with
  | nil =>
    intro room blocks
    exact List.nil_prefix
  | cons o rest ih =>
    intro room blocks
    unfold fits
    split
    next => exact List.nil_prefix
    next =>
      split
      next => exact List.prefix_cons_inj _ |>.mpr ih
      next =>
        split
        next => exact List.nil_prefix
        next => exact List.prefix_cons_inj _ |>.mpr ih

theorem length_fits : ∀ {room blocks : Nat}, (flat (fits room blocks objs)).length ≤ room := by
  induction objs with
  | nil =>
    intro room blocks
    exact Nat.zero_le _
  | cons o rest ih =>
    intro room blocks
    unfold fits
    split
    next => exact Nat.zero_le _
    next hfits =>
      have htail := fun blocks => @ih (room - o.bytes.length) blocks
      split
      next =>
        rw [flat_cons, List.length_append]
        have := htail blocks
        omega
      next =>
        split
        next => exact Nat.zero_le _
        next =>
          rw [flat_cons, List.length_append]
          have := htail (blocks + 1)
          omega

/-- Nothing fits when the first object is longer. -/
theorem fits_nil_iff : fits room 0 (o :: rest) = [] ↔ room < o.bytes.length := by
  unfold fits
  constructor
  · intro h
    by_contra hfits
    rw [if_neg hfits] at h
    cases o with
    | footer laid => cases h
    | block laid => simp [maximumRunBlocks] at h
  · intro h
    rw [if_pos h]

/-- What exactly holds the first object holds nothing else. -/
theorem fits_first : fits o.bytes.length 0 (o :: rest) = [o] := by
  have hnone : ∀ blocks, fits 0 blocks rest = [] := by
    intro blocks
    cases rest with
    | nil => rfl
    | cons o rest =>
      unfold fits
      rw [if_pos o.bytes_pos]
  unfold fits
  rw [if_neg (lt_irrefl _), Nat.sub_self]
  cases o with
  | footer laid => simp only [hnone]
  | block laid =>
    simp only [hnone]
    exact if_neg (by decide)

theorem clear_first : clear o.bytes.length 0 (o :: rest) = true := by
  have hfront := o.prefix_le
  have hpos := o.bytes_pos
  have hclear : ∀ blocks, clear 0 blocks rest = true := by
    intro blocks
    cases rest with
    | nil => rfl
    | cons o rest =>
      unfold clear
      exact if_pos rfl
  unfold clear
  rw [if_neg (by omega), if_neg (by omega), if_neg (lt_irrefl _), Nat.sub_self]
  cases o with
  | footer laid => exact hclear 0
  | block laid =>
    simp only [hclear]
    exact if_neg (by decide)

end Fits

/-! ## One part -/

section Walk

variable {start : RunStart}

/-- What a walk over the first `room` bytes of a stretch comes to. -/
def WalksOut (start : RunStart) (room : Nat) (objs : List (Obj codec history)) (w : Walked)
    (result : Except Errc (Walked × Option Nat)) : Prop :=
  if clear room w.blocks.length objs then
    ∃ logical physical cut, result = .ok
        (⟨w.blocks ++ (blocksOf (fits room w.blocks.length objs)).map (Laid.row start.position),
          w.offset + (flat (fits room w.blocks.length objs)).length, logical, physical⟩, cut)
      ∧ (w.blocks ++ (blocksOf (fits room w.blocks.length objs)).map
          (Laid.row start.position)).length ≤ maximumRunBlocks
      ∧ ∀ o rest, objs = o :: rest → 0 < room → room < o.bytes.length →
        cut = some o.bytes.length
  else result = .error .malformedData

/-- A walk that stops where it stands. -/
theorem WalksOut.stay {room : Nat} {objs : List (Obj codec history)} {w : Walked}
    {cut : Option Nat} (hclear : clear room w.blocks.length objs = true)
    (hfits : fits room w.blocks.length objs = []) (hmax : w.blocks.length ≤ maximumRunBlocks)
    (hcut : ∀ o rest, objs = o :: rest → 0 < room → room < o.bytes.length →
      cut = some o.bytes.length) :
    WalksOut start room objs w (.ok (w, cut)) := by
  unfold WalksOut
  rw [if_pos hclear, hfits]
  exact ⟨w.logical, w.physical, cut, by simp, by simpa using hmax, hcut⟩

theorem WalksOut.footer {laid : LaidFooter codec} {rest : List (Obj codec history)} {room : Nat}
    {w : Walked} {result : Except Errc (Walked × Option Nat)} (hroom : laid.bytes.length ≤ room)
    (h : WalksOut start (room - laid.bytes.length) rest
      { w with offset := w.offset + laid.bytes.length } result) :
    WalksOut start room (.footer laid :: rest) w result := by
  unfold WalksOut at h ⊢
  rw [clear_footer hroom, fits_footer hroom]
  split
  next hclear =>
    rw [if_pos hclear] at h
    obtain ⟨logical, physical, cut, hresult, hmax, _⟩ := h
    refine ⟨logical, physical, cut, ?_, hmax, ?_⟩
    · rw [hresult, flat_cons, List.length_append, blocksOf_footer, Nat.add_assoc]
      rfl
    · intro o rest' heq _ hlt
      obtain ⟨rfl, rfl⟩ := List.cons.inj heq
      exact absurd hlt (not_lt.mpr hroom)
  next hclear =>
    rw [if_neg hclear] at h
    exact h

theorem WalksOut.block {laid : Laid codec history} {rest : List (Obj codec history)} {room : Nat}
    {w : Walked} {result : Except Errc (Walked × Option Nat)} (hroom : laid.bytes.length ≤ room)
    (hfull : w.blocks.length ≠ maximumRunBlocks)
    (h : WalksOut start (room - laid.bytes.length) rest
      ⟨w.blocks ++ [laid.row start.position], w.offset + laid.bytes.length,
        laid.records.logical.end_, laid.records.physical.end_⟩ result) :
    WalksOut start room (.block laid :: rest) w result := by
  unfold WalksOut at h ⊢
  rw [clear_block hroom, if_neg hfull, fits_block hroom, if_neg hfull]
  simp only [List.length_append, List.length_singleton] at h
  split
  next hclear =>
    rw [if_pos hclear] at h
    obtain ⟨logical, physical, cut, hresult, hmax, _⟩ := h
    refine ⟨logical, physical, cut, ?_, ?_, ?_⟩
    · rw [hresult, flat_cons, List.length_append, blocksOf_block, List.map_cons, Nat.add_assoc,
        List.append_assoc]
      rfl
    · simpa [Nat.add_assoc, Nat.add_comm] using hmax
    · intro o rest' heq _ hlt
      obtain ⟨rfl, rfl⟩ := List.cons.inj heq
      exact absurd hlt (not_lt.mpr hroom)
  next hclear =>
    rw [if_neg hclear] at h
    exact h

/-- An object whose prefix the bytes hold, and not all of it, stops the walk. -/
theorem objectAt_cut {o : Obj codec history} {a t : List UInt8} {w : Walked}
    (hw : w.offset = a.length) (ht : t <+: o.bytes) (hfront : envelopePrefixBytes ≤ t.length)
    (hshort : t.length < o.bytes.length) :
    objectAt codec history start false (a ++ t) w = .ok (.stop (some o.bytes.length)) := by
  have hremaining : (a ++ t).length - w.offset = t.length := by
    rw [List.length_append, hw]
    omega
  have hraw : bytesAt (a ++ t) w.offset envelopePrefixBytes = o.bytes.take envelopePrefixBytes := by
    unfold bytesAt
    rw [hw, List.drop_left]
    obtain ⟨u, hu⟩ := ht
    rw [← hu, List.take_append_of_le_length hfront]
  simp only [objectAt, hraw, hremaining, o.peeked.1, o.peeked.2]
  rw [if_neg (by omega), if_neg (by simp), if_pos hshort]
  rfl

/-- A block past the most a run holds stops it too. -/
theorem objectAt_full {laid : Laid codec history} {a rest : List UInt8} {w : Walked}
    (hw : w.offset = a.length) (hfull : w.blocks.length = maximumRunBlocks) :
    objectAt codec history start false (a ++ (laid.bytes ++ rest)) w = .ok (.stop none) := by
  obtain ⟨hheader, hlength⟩ := codec.extents _ _ laid.peeked
  obtain ⟨hbytes, hremaining⟩ := @standing a laid.bytes rest w hw
  have hraw := hbytes _ (hheader.trans hlength)
  simp only [objectAt, hraw, hremaining, laid.written, laid.peeked]
  rw [if_neg (by omega), if_neg (by simp), if_neg (by omega), if_neg (by rw [laid.family]; decide),
    if_neg (by simp [laid.family]), if_pos hfull]
  rfl

/-- **The walk over the first bytes of a stretch**, by induction on its objects: it takes those that
    fit, unless the bytes end inside a prefix. -/
theorem walkRun_part {objs : List (Obj codec history)} :
    ∀ {left room : Nat} {a : List UInt8} {w : Walked}, room < left → room ≤ (flat objs).length →
      w.offset = a.length → Continues w.logical w.physical (start.position + w.offset) objs →
      w.blocks.length ≤ maximumRunBlocks →
      WalksOut start room objs w
        (walkRun codec history start false (a ++ (flat objs).take room) left w) := by
  induction objs with
  | nil =>
    intro left room a w hleft hroom hw _ hmax
    obtain ⟨left, rfl⟩ := Nat.exists_eq_succ_of_ne_zero (Nat.ne_zero_of_lt hleft)
    rw [walkRun_end (by simp [hw])]
    exact WalksOut.stay rfl rfl hmax (by simp)
  | cons o rest ih =>
    intro left room a w hleft hroom hw hcont hmax
    obtain ⟨left, rfl⟩ := Nat.exists_eq_succ_of_ne_zero (Nat.ne_zero_of_lt hleft)
    have hlength : ((flat (o :: rest)).take room).length = room := by
      rw [List.length_take]
      omega
    by_cases hnone : room = 0
    · subst hnone
      rw [walkRun_end (by simp [hw])]
      refine WalksOut.stay ?_ ?_ hmax ?_
      · unfold clear
        exact if_pos rfl
      · unfold fits
        exact if_pos o.bytes_pos
      · intro o rest _ hlt
        exact absurd hlt (lt_irrefl 0)
    have hmore : w.offset < (a ++ (flat (o :: rest)).take room).length := by
      rw [List.length_append, hlength, hw]
      omega
    by_cases hshort : room < envelopePrefixBytes
    · have herror : objectAt codec history start false (a ++ (flat (o :: rest)).take room) w
          = .error .malformedData := by
        refine if_pos ?_
        rw [List.length_append, hlength, hw]
        omega
      unfold WalksOut
      have hclear : clear room w.blocks.length (o :: rest) = false := by
        unfold clear
        rw [if_neg hnone, if_pos hshort]
      rw [if_neg (by rw [hclear]; simp)]
      unfold walkRun
      rw [if_neg (not_le.mpr hmore), herror]
    by_cases hlong : room < o.bytes.length
    · have hfront : (flat (o :: rest)).take room <+: o.bytes := by
        rw [flat_cons, List.take_append_of_le_length hlong.le]
        exact List.take_prefix _ _
      have hat := @objectAt_cut codec history start o a _ w hw hfront (by omega) (by omega)
      unfold walkRun
      rw [if_neg (not_le.mpr hmore), hat]
      refine WalksOut.stay ?_ ?_ hmax ?_
      · unfold clear
        rw [if_neg hnone, if_neg hshort, if_pos hlong]
      · unfold fits
        exact if_pos hlong
      · intro o' rest' heq _ _
        obtain ⟨rfl, rfl⟩ := List.cons.inj heq
        rfl
    have htake : (flat (o :: rest)).take room
        = o.bytes ++ (flat rest).take (room - o.bytes.length) := by
      rw [flat_cons, List.take_append, List.take_of_length_le (not_lt.mp hlong)]
    have hrest : room - o.bytes.length ≤ (flat rest).length := by
      rw [flat_cons, List.length_append] at hroom
      omega
    have hpos := o.bytes_pos
    have hless : room - o.bytes.length < left := by omega
    have hoffset : w.offset + o.bytes.length = (a ++ o.bytes).length := by
      rw [List.length_append, hw]
    rw [htake] at hmore ⊢
    rw [← List.append_assoc]
    cases o with
    | footer laid =>
      rw [List.append_assoc, walkRun_footer hmore (objectAt_footer laid hw (fun _ => rfl)),
        ← List.append_assoc]
      apply WalksOut.footer (not_lt.mp hlong)
      refine @ih left _ _ _ hless hrest hoffset ?_ hmax
      rw [← Nat.add_assoc]
      exact hcont
    | block laid =>
      obtain ⟨hl, hp, hb, _, _, _, hcont⟩ := hcont
      by_cases hfull : w.blocks.length = maximumRunBlocks
      · have hat : objectAt codec history start false
            (a ++ (laid.bytes ++ (flat rest).take (room - laid.bytes.length))) w
            = .ok (.stop none) := objectAt_full hw hfull
        rw [List.append_assoc]
        unfold walkRun
        rw [if_neg (not_le.mpr hmore)]
        simp only [Obj.bytes, hat]
        refine WalksOut.stay ?_ ?_ hmax ?_
        · rw [clear_block (not_lt.mp hlong), if_pos hfull]
        · rw [fits_block (not_lt.mp hlong), if_pos hfull]
        · intro o' rest' heq _ hlt
          obtain ⟨rfl, rfl⟩ := List.cons.inj heq
          exact absurd hlt hlong
      · rw [List.append_assoc, walkRun_block hmore (objectAt_block laid hw hp hb hl (by omega)),
          ← List.append_assoc]
        have hrow := laid.rowOf_check hb
        simp only [Laid.check] at hrow
        rw [hrow]
        apply WalksOut.block (not_lt.mp hlong) hfull
        refine @ih left _ _ _ hless hrest hoffset ?_ ?_
        · rw [← Nat.add_assoc]
          exact hcont
        · simp only [List.length_append, List.length_singleton]
          omega

/-- **The check of a part.** -/
theorem checkSegmentRun_part {objs : List (Obj codec history)} {room : Nat} (hpos : 0 < room)
    (hroom : room ≤ (flat objs).length) (hstart : history.dataStart ≤ start.position)
    (hcont : Continues start.base start.physical start.position objs) :
    if clear room 0 objs then
      ∃ run cut, checkSegmentRun codec history start false ((flat objs).take room) = .ok ⟨run, cut⟩
        ∧ run.begin_ = start.position ∧ Shows run (fits room 0 objs)
        ∧ ∀ o rest, objs = o :: rest → room < o.bytes.length → cut = some o.bytes.length
    else checkSegmentRun codec history start false ((flat objs).take room)
      = .error .malformedData := by
  have hlength : ((flat objs).take room).length = room := by
    rw [List.length_take]
    omega
  have hne : (flat objs).take room ≠ [] := by
    intro h
    rw [h] at hlength
    simp at hlength
    omega
  have hwalk := @walkRun_part codec history start objs (((flat objs).take room).length + 1) room []
    ⟨[], 0, start.base, start.physical⟩ (by omega) hroom rfl hcont (Nat.zero_le _)
  rw [List.nil_append] at hwalk
  unfold WalksOut at hwalk
  simp only [List.length_nil, List.nil_append, Nat.zero_add] at hwalk
  split
  next hclear =>
    rw [if_pos hclear] at hwalk
    obtain ⟨logical, physical, cut, hresult, hmax, hcut⟩ := hwalk
    obtain ⟨rest, hrest⟩ := @fits_before codec history objs room 0
    obtain ⟨t, ht⟩ : ∃ t, (flat objs).take room = flat (fits room 0 objs) ++ t := by
      refine ⟨(flat rest).take (room - (flat (fits room 0 objs)).length), ?_⟩
      have hflat : flat objs = flat (fits room 0 objs) ++ flat rest := by
        rw [← flat_append, hrest]
      conv_lhs => rw [hflat, List.take_append, List.take_of_length_le length_fits]
    have hmid : Continues start.base start.physical start.position (fits room 0 objs) := by
      rw [← hrest, continues_append] at hcont
      exact hcont.1
    rw [ht] at hresult hne ⊢
    obtain ⟨run, hrun, hbegin, hshows⟩ := checkSegmentRun_walked hne hstart hmid hresult rfl rfl hmax
    exact ⟨run, cut, hrun, hbegin, hshows, fun o rest heq hlt => hcut o rest heq hpos hlt⟩
  next hclear =>
    rw [if_neg hclear] at hwalk
    unfold checkSegmentRun
    rw [if_neg (by
      rintro (h | h)
      · exact hne h
      · omega), hwalk]

end Walk

section Attempts

variable {all pre objs post : List (Obj codec history)} {start : RunStart} {zeroes end_ : Nat}

/-- What the file holds of a stretch. -/
theorem read_stretch (hobjs : all = pre ++ (objs ++ post))
    (hposition : start.position = history.dataStart + (flat pre).length) {room : Nat}
    (hroom : room ≤ (flat objs).length) :
    (fileOf all zeroes).read start.position room = .ok ((flat objs).take room) := by
  unfold File.read fileOf
  simp only
  rw [hposition, Nat.add_sub_cancel_left, hobjs]
  simp only [flat_append, List.length_append, List.length_replicate]
  rw [if_neg (by omega)]
  unfold bytesAt
  rw [List.append_assoc, List.drop_left, List.append_assoc, List.take_append_of_le_length hroom]

/-- What a part comes to. -/
def PartOut (start : RunStart) (runBytes : Nat) (objs : List (Obj codec history))
    (result : Except Errc Run) : Prop :=
  if clear (min (flat objs).length runBytes) 0 objs then
    ∃ run, result = .ok run ∧ run.begin_ = start.position ∧ Shows run (partOf runBytes objs)
  else result = .error .malformedData

variable (hobjs : all = pre ++ (objs ++ post))
  (hposition : start.position = history.dataStart + (flat pre).length)
  (hcont : Continues start.base start.physical start.position objs) (hne : objs ≠ [])

include hobjs hposition hcont

/-- An attempt that takes something returns it. -/
theorem attempts_fits {left room : Nat} (hpos : 0 < room) (hroom : room ≤ (flat objs).length)
    (hclear : clear room 0 objs = true) (hfits : fits room 0 objs ≠ []) :
    ∃ run, attempts codec history (fileOf all zeroes) start end_ (fun _ => {}) (left + 1) room
        = .ok run
      ∧ run.begin_ = start.position ∧ Shows run (fits room 0 objs) := by
  have hcheck := checkSegmentRun_part hpos hroom (by omega) hcont
  rw [if_pos hclear] at hcheck
  obtain ⟨run, cut, hrun, hbegin, hshows, _⟩ := hcheck
  refine ⟨run, ?_, hbegin, hshows⟩
  have hpositive : 0 < (flat (fits room 0 objs)).length := by
    obtain ⟨o, rest, hsome⟩ := List.exists_cons_of_ne_nil hfits
    rw [hsome, flat_cons, List.length_append]
    have := o.bytes_pos
    omega
  have hadvanced : run.end_ ≠ start.position := by
    rw [hshows.end_, hbegin]
    omega
  unfold attempts
  simp only [read_stretch hobjs hposition hroom, Except.bind, hrun]
  exact if_neg hadvanced

include hne

/-- **A part**: what fits one read, or the first object. -/
theorem attempts_part (hend : end_ = start.position + (flat objs).length) {runBytes : Nat}
    (hlimit : 0 < runBytes) :
    PartOut start runBytes objs (attempts codec history (fileOf all zeroes) start end_ (fun _ => {})
      2 (min (flat objs).length runBytes)) := by
  obtain ⟨o, rest, rfl⟩ := List.exists_cons_of_ne_nil hne
  have hobject := o.bytes_pos
  have hflat : (flat (o :: rest)).length = o.bytes.length + (flat rest).length := by
    rw [flat_cons, List.length_append]
  generalize hroom : min (flat (o :: rest)).length runBytes = room
  have hpos : 0 < room := by omega
  have hwithin : room ≤ (flat (o :: rest)).length := by omega
  unfold PartOut
  rw [hroom]
  split
  next hclear =>
    by_cases hfits : fits room 0 (o :: rest) = []
    · -- the first object is read once more, with exactly its length
      have hlong := fits_nil_iff.mp hfits
      have hpart : partOf runBytes (o :: rest) = [o] := by
        unfold partOf
        rw [hroom, hfits]
        rfl
      rw [hpart]
      have hcheck := checkSegmentRun_part hpos hwithin (by omega) hcont
      rw [if_pos hclear] at hcheck
      obtain ⟨run, cut, hrun, hbegin, hshows, hcut⟩ := hcheck
      have hstill : run.end_ = start.position := by
        rw [hshows.end_, hbegin, hfits]
        rfl
      obtain ⟨whole, hwhole, hbegins, hshown⟩ := @attempts_fits codec history all pre (o :: rest)
        post start zeroes end_ hobjs hposition hcont 0 o.bytes.length hobject (by omega) clear_first
        (by rw [fits_first]; simp)
      rw [fits_first] at hshown
      refine ⟨whole, ?_, hbegins, hshown⟩
      rw [← hwhole]
      unfold attempts
      simp only [read_stretch hobjs hposition hwithin, Except.bind, hrun]
      rw [if_pos hstill, hcut o rest rfl hlong]
      exact if_neg (by
        simp only [Option.getD_some]
        omega)
    · have hpart : partOf runBytes (o :: rest) = fits room 0 (o :: rest) := by
        unfold partOf
        rw [hroom]
        split
        next hnil => exact absurd hnil hfits
        next hcons => exact hcons.symm
      rw [hpart]
      exact attempts_fits hobjs hposition hcont hpos hwithin hclear hfits
  next hclear =>
    have hcheck := checkSegmentRun_part hpos hwithin (by omega) hcont
    rw [if_neg hclear] at hcheck
    unfold attempts
    simp only [read_stretch hobjs hposition hwithin, Except.bind, hcheck]

end Attempts


/-! ## All parts -/

/-- A block as a run shows it: what it keeps, where it lies in the file, and its batch. -/
structure Shown where
  logical : Span
  physical : Span
  bytes : Span
  batch : Option (List UInt8)
  deriving DecidableEq

/-- The blocks of a run. -/
def shownIn (run : Run) : List Shown :=
  run.blocks.mapIdx fun at_ block =>
    ⟨block.logical, block.physical,
      ⟨run.begin_ + block.offset, run.begin_ + block.offset + block.bytes⟩, run.batch at_⟩

/-- A block as it was appended. -/
def shownOf (laid : Laid codec history) : Shown :=
  ⟨laid.records.logical, laid.records.physical, laid.records.bytes, some laid.batch⟩

/-- **Runs are the parts of a stretch**: each begins where the one before ended, takes at least an
    object, and no more than one read holds unless that is its first object; and no block is past
    them. -/
def InParts (runBytes : Nat) : Nat → List (Obj codec history) → List Run → Prop
  | _, objs, [] => blocksOf objs = []
  | position, objs, run :: runs => ∃ mid rest, objs = mid ++ rest ∧ mid ≠ []
      ∧ run.begin_ = position ∧ Shows run mid
      ∧ ((flat mid).length ≤ runBytes ∨ ∃ o, mid = [o])
      ∧ InParts runBytes (position + (flat mid).length) rest runs

theorem shows_shown {run : Run} {mid : List (Obj codec history)} (h : Shows run mid)
    {logical physical : Nat} (hcont : Continues logical physical run.begin_ mid) :
    shownIn run = (blocksOf mid).map shownOf := by
  have hlength := congrArg List.length h.table
  rw [List.length_map, List.length_map] at hlength
  unfold shownIn
  apply List.ext_getElem?
  intro i
  rw [List.getElem?_mapIdx, List.getElem?_map]
  cases hi : (blocksOf mid)[i]? with
  | none =>
    rw [List.getElem?_eq_none_iff] at hi
    rw [List.getElem?_eq_none (by omega)]
    rfl
  | some laid =>
    have hrow : (run.blocks.map RunBlock.described)[i]? = some (laid.row run.begin_) := by
      rw [h.table, List.getElem?_map, hi]
      rfl
    rw [List.getElem?_map] at hrow
    obtain ⟨block, hblock, hdescribed⟩ := Option.map_eq_some_iff.mp hrow
    have hwithin := (continues_within hcont laid (List.mem_of_getElem? hi)).1
    have h₁ : block.offset = laid.records.bytes.begin_ - run.begin_ :=
      (congrArg RunBlock.offset hdescribed :)
    have h₂ : block.bytes = laid.bytes.length := (congrArg RunBlock.bytes hdescribed :)
    have h₃ : block.logical = laid.records.logical := (congrArg RunBlock.logical hdescribed :)
    have h₄ : block.physical = laid.records.physical := (congrArg RunBlock.physical hdescribed :)
    have hbegin : run.begin_ + block.offset = laid.records.bytes.begin_ := by omega
    have hend : laid.records.bytes.begin_ + block.bytes = laid.records.bytes.end_ := by
      rw [laid.span, h₂]
    rw [hblock]
    simp only [Option.map_some, h₃, h₄, hbegin, hend, h.batches i laid hi, shownOf]

/-- What the parts show are the blocks of the stretch. -/
theorem InParts.shown {runBytes : Nat} {runs : List Run} :
    ∀ {logical physical position : Nat} {objs : List (Obj codec history)},
      InParts runBytes position objs runs → Continues logical physical position objs →
      runs.flatMap shownIn = (blocksOf objs).map shownOf := by
  induction runs with
  | nil =>
    intro logical physical position objs h _
    rw [show blocksOf objs = [] from h]
    rfl
  | cons run runs ih =>
    intro logical physical position objs h hcont
    obtain ⟨mid, rest, rfl, _, rfl, hshows, _, hrest⟩ := h
    rw [continues_append] at hcont
    rw [List.flatMap_cons, shows_shown hshows hcont.1, ih hrest hcont.2, blocksOf_append, List.map_append]

/-- What follows a part. -/
theorem resumeOf_shows {run : Run} {mid : List (Obj codec history)} (h : Shows run mid)
    {start : RunStart} : resumeOf run start = if spent mid then none
      else some ⟨run.end_, logicalEnd start.base mid, physicalEnd start.physical mid⟩ := by
  have hlength := congrArg List.length h.table
  rw [List.length_map, List.length_map] at hlength
  have hlast := congrArg List.getLast? h.table
  rw [List.getLast?_map, List.getLast?_map] at hlast
  unfold resumeOf spent logicalEnd physicalEnd
  cases hblocks : (blocksOf mid).getLast? with
  | none =>
    rw [hblocks, Option.map_none, Option.map_eq_none_iff] at hlast
    rw [hlast]
    rfl
  | some laid =>
    rw [hblocks, Option.map_some] at hlast
    obtain ⟨block, hblock, hdescribed⟩ := Option.map_eq_some_iff.mp hlast
    have h₁ : block.logical = laid.records.logical := (congrArg RunBlock.logical hdescribed :)
    have h₂ : block.physical = laid.records.physical := (congrArg RunBlock.physical hdescribed :)
    have hpos : 0 < run.blocks.length := by
      apply List.length_pos_of_ne_nil
      intro hnil
      rw [hnil] at hblock
      cases hblock
    rw [List.getLast?_eq_getElem?] at hblock
    unfold Run.after
    rw [Nat.sub_add_cancel hpos, List.getElem?_eq_none (le_refl _), List.getLast?_eq_getElem?, hblock]
    simp only [Option.any_some, Option.map_some, Option.getD_some, h₁, h₂, decide_eq_true_eq]

/-- Nothing follows the last offset there is. -/
theorem spent_rest {mid rest : List (Obj codec history)} {logical physical position : Nat}
    (hcont : Continues logical physical position (mid ++ rest)) (h : spent mid = true) :
    blocksOf rest = [] := by
  rw [continues_append] at hcont
  unfold spent at h
  cases hlast : (blocksOf mid).getLast? with
  | none =>
    rw [hlast] at h
    cases h
  | some last =>
    have hend : logicalEnd logical mid = noOffset := by
      unfold logicalEnd
      rw [hlast] at h ⊢
      simpa using h
    obtain ⟨hrising, hfrom⟩ := continues_rising hcont.2
    apply List.eq_nil_iff_forall_not_mem.mpr
    intro laid hmem
    have h₁ := hfrom laid hmem
    have h₂ := hrising.records laid hmem
    omega

theorem clear_part {runBytes : Nat} {objs : List (Obj codec history)} (hne : objs ≠ []) :
    Clear runBytes objs ↔ clear (min (flat objs).length runBytes) 0 objs = true
      ∧ (spent (partOf runBytes objs) = true
        ∨ Clear runBytes (objs.drop (partOf runBytes objs).length)) := by
  cases objs with
  | nil => exact absurd rfl hne
  | cons o rest => rw [Clear]

theorem partOf_front {runBytes : Nat} {objs : List (Obj codec history)} :
    objs = partOf runBytes objs ++ objs.drop (partOf runBytes objs).length := by
  have hfront : partOf runBytes objs <+: objs := by
    unfold partOf
    split
    next => exact List.take_prefix _ _
    next o rest hfits =>
      rw [← hfits]
      exact fits_before
  rw [List.prefix_iff_eq_append] at hfront
  exact hfront.symm

theorem partOf_size {runBytes : Nat} {objs : List (Obj codec history)} (hne : objs ≠ []) :
    partOf runBytes objs ≠ []
      ∧ ((flat (partOf runBytes objs)).length ≤ runBytes ∨ ∃ o, partOf runBytes objs = [o]) := by
  obtain ⟨o, rest, rfl⟩ := List.exists_cons_of_ne_nil hne
  refine ⟨List.ne_nil_of_length_pos length_partOf, ?_⟩
  unfold partOf
  split
  next => exact .inr ⟨o, rfl⟩
  next first more hfits =>
    rw [← hfits]
    exact .inl (length_fits.trans (min_le_right _ _))

section Stretch

variable {all post : List (Obj codec history)} {zeroes end_ : Nat} {config : Config}
  {held : Nat → Bool}

/-- **The parts of a stretch**, by induction on the turns there are for them. -/
theorem readParts_out (hlimit : 0 < config.runBytes) :
    ∀ {left : Nat} {pre objs : List (Obj codec history)} {start : RunStart}, objs.length ≤ left →
      objs ≠ [] → all = pre ++ (objs ++ post) →
      start.position = history.dataStart + (flat pre).length →
      Continues start.base start.physical start.position objs →
      end_ = start.position + (flat objs).length →
      (Clear config.runBytes objs → ∃ runs,
        readParts codec history (fileOf all zeroes) config held end_ left start = some (.ok runs)
          ∧ InParts config.runBytes start.position objs runs)
        ∧ (¬ Clear config.runBytes objs → ∃ why,
          readParts codec history (fileOf all zeroes) config held end_ left start
            = some (.error why)) := by
  intro left
  induction left with
  | zero =>
    intro pre objs start hleft hne _ _ _ _
    exact absurd (List.length_eq_zero_iff.mp (Nat.le_zero.mp hleft)) hne
  | succ left ih =>
    intro pre objs start hleft hne hobjs hposition hcont hend
    have hpos : 0 < (flat objs).length := by
      obtain ⟨o, rest, rfl⟩ := List.exists_cons_of_ne_nil hne
      rw [flat_cons, List.length_append]
      have := o.bytes_pos
      omega
    have hout := @attempts_part codec history all pre objs post start zeroes end_ hobjs hposition
      hcont hne hend config.runBytes hlimit
    have hpart : (if held start.position then
          readHeld codec history (fileOf all zeroes) config start end_ none fun _ => {}
        else readAlone codec history (fileOf all zeroes) config start end_ end_ none fun _ => {})
        = attempts codec history (fileOf all zeroes) start end_ (fun _ => {}) 2
          (min (flat objs).length config.runBytes) := by
      have hlength : end_ - start.position = (flat objs).length := by omega
      unfold readHeld readAlone
      simp only [hlength]
      split
      next => exact if_neg (by omega)
      next => exact if_neg (by omega)
    have hsplit := @partOf_front codec history config.runBytes objs
    obtain ⟨hsome, hsize⟩ := @partOf_size codec history config.runBytes objs hne
    rw [clear_part hne]
    unfold readParts
    simp only [hpart]
    unfold PartOut at hout
    generalize hmid : partOf config.runBytes objs = mid at *
    generalize hrest : objs.drop mid.length = rest at *
    by_cases hclear : clear (min (flat objs).length config.runBytes) 0 objs = true
    · rw [if_pos hclear] at hout
      obtain ⟨run, hrun, hbegin, hshows⟩ := hout
      have hrunEnd : run.end_ = start.position + (flat mid).length := by
        rw [hshows.end_, hbegin]
      have hflat : (flat objs).length = (flat mid).length + (flat rest).length := by
        rw [hsplit, flat_append, List.length_append]
      have hcont' := hcont
      rw [hsplit, continues_append] at hcont'
      simp only [hrun]
      have hin : ∀ runs, InParts config.runBytes run.end_ rest runs →
          InParts config.runBytes start.position objs (run :: runs) := by
        intro runs hruns
        exact ⟨mid, rest, hsplit, hsome, hbegin, hshows, hsize, hrunEnd ▸ hruns⟩
      by_cases hmore : run.end_ < end_
      · rw [if_pos hmore, resumeOf_shows hshows]
        by_cases hspent : spent mid = true
        · rw [if_pos hspent]
          refine ⟨fun _ => ⟨[run], rfl, hin [] ?_⟩, fun hnot => ?_⟩
          · exact spent_rest (hsplit ▸ hcont) hspent
          · exact absurd ⟨hclear, .inl hspent⟩ hnot
        · rw [if_neg hspent]
          have hnext : rest ≠ [] := by
            rintro rfl
            simp at hflat
            omega
          have hshorter : rest.length ≤ left := by
            have hlength := congrArg List.length hsplit
            rw [List.length_append] at hlength
            have := List.length_pos_of_ne_nil hsome
            omega
          obtain ⟨hyes, hno⟩ := @ih (pre ++ mid) rest
            ⟨run.end_, logicalEnd start.base mid, physicalEnd start.physical mid⟩ hshorter hnext
            (by rw [hobjs, hsplit]; simp only [List.append_assoc])
            (by simp only [flat_append, List.length_append]; omega)
            (by simpa only [hrunEnd] using hcont'.2) (by simp only; omega)
          refine ⟨?_, ?_⟩
          · rintro ⟨-, hclears⟩
            obtain ⟨runs, hruns, hparts⟩ := hyes (hclears.resolve_left hspent)
            refine ⟨run :: runs, ?_, hin runs hparts⟩
            simp only [hruns]
            rfl
          · intro hnot
            obtain ⟨why, hwhy⟩ := hno (fun hclears => hnot ⟨hclear, .inr hclears⟩)
            refine ⟨why, ?_⟩
            simp only [hwhy]
            rfl
      · have hover : rest = [] := by
          by_contra hnext
          obtain ⟨o, more, rfl⟩ := List.exists_cons_of_ne_nil hnext
          have := o.bytes_pos
          simp only [flat_cons, List.length_append] at hflat
          omega
        subst hover
        rw [if_neg hmore]
        refine ⟨fun _ => ⟨[run], rfl, hin [] rfl⟩, fun hnot => ?_⟩
        exact absurd ⟨hclear, .inr (by rw [Clear]; trivial)⟩ hnot
    · rw [if_neg hclear] at hout
      simp only [hout]
      exact ⟨fun h => absurd h.1 hclear, fun _ => ⟨_, rfl⟩⟩

end Stretch

/-- **A stretch read in parts is the stretch**: no part fails, each goes on where the one before
    ended, and together they show the blocks a check of the whole stretch does. -/
def ReadInParts (codec : RunCodec) (history : History) (file : File) (config : Config)
    (held : Nat → Bool) (start : RunStart) (objs : List (Obj codec history)) (left : Nat) : Prop :=
  ∃ runs, readParts codec history file config held (start.position + (flat objs).length) left start
      = some (.ok runs)
    ∧ InParts config.runBytes start.position objs runs
    ∧ runs.flatMap shownIn = (blocksOf objs).map shownOf
    ∧ ((blocksOf objs).length ≤ maximumRunBlocks → ∃ checked,
      checkSegmentRun codec history start true (flat objs) = .ok checked
        ∧ runs.flatMap shownIn = shownIn checked.run)

/-- Where a stretch begins with a block. -/
def startAt (pre : List (Obj codec history)) (first : Laid codec history) : RunStart :=
  ⟨history.dataStart + (flat pre).length, first.records.logical.begin_,
    first.records.physical.begin_⟩

/-- **A stretch can be read in parts exactly where no part ends inside a prefix**, whatever its
    objects, the limit of one read, and where each part is read from. -/
theorem readInParts_iff {all pre rest post : List (Obj codec history)} {first : Laid codec history}
    (hwhole : Whole all) (hobjs : all = pre ++ (.block first :: rest ++ post)) {config : Config}
    (hlimit : 0 < config.runBytes) (zeroes : Nat) (held : Nat → Bool) {left : Nat}
    (hleft : (Obj.block first :: rest).length ≤ left) :
    ReadInParts codec history (fileOf all zeroes) config held (startAt pre first)
        (.block first :: rest) left
      ↔ Clear config.runBytes (.block first :: rest) := by
  have hcont : Continues (startAt pre first).base (startAt pre first).physical
      (startAt pre first).position (.block first :: rest) := by
    have hat := hwhole.at_ hobjs
    exact ⟨rfl, rfl, hat.2.2.1, by rw [startAt, hat.1]; exact hat.2.2.2.1, hat.2.2.2.2.1,
      by rw [startAt, hat.1, hat.2.1]; exact hat.2.2.2.2.2.1, hat.2.2.2.2.2.2⟩
  obtain ⟨hyes, hno⟩ := @readParts_out codec history all post zeroes _ config held hlimit left pre
    (.block first :: rest) (startAt pre first) hleft (by simp) hobjs rfl hcont rfl
  constructor
  · rintro ⟨runs, hruns, _⟩
    by_contra hnot
    obtain ⟨why, hwhy⟩ := hno hnot
    rw [hwhy] at hruns
    cases hruns
  · intro hclear
    obtain ⟨runs, hruns, hparts⟩ := hyes hclear
    have hshown := hparts.shown hcont
    refine ⟨runs, hruns, hparts, hshown, ?_⟩
    intro hroom
    have hwholeRun := checkSegmentRun_objs hcont (Nat.le_add_right _ _) hroom
    refine ⟨_, hwholeRun, ?_⟩
    have hshows := (filled_deviceRun hcont hroom).shows (by exact hcont)
    rw [hshown, shows_shown hshows (by exact hcont)]

/-! ## A part that ends inside a prefix -/

/-- A codec of blocks that say how many units of 16 bytes they are, which record they keep, and in
    which unit of the file they begin. -/
def unevenCodec : RunCodec where
  peekPrefix raw :=
    if headerBytes raw = 32 ∧ 32 ≤ 16 * raw[1]!.toNat then .ok (16 * raw[1]!.toNat)
    else .error ⟨.malformedData, false⟩
  headerCrc _ := true
  extents raw length h := by
    split at h
    next hheader =>
      cases h
      exact ⟨hheader.1.ge, hheader.1.le.trans hheader.2⟩
    next => cases h
  family raw := raw[0]!.toNat
  checkBlock bytes e :=
    if e.location.position = 16 * bytes[3]!.toNat ∧ e.location.physicalBegin = bytes[2]!.toNat then
      .ok ⟨⟨⟨bytes[2]!.toNat, bytes[2]!.toNat + 1⟩, ⟨bytes[2]!.toNat, bytes[2]!.toNat + 1⟩,
        ⟨16 * bytes[3]!.toNat, 16 * bytes[3]!.toNat + bytes.length⟩⟩, 176, bytes.length - 176⟩
    else .error .wrongContext

theorem uneven_pos : 0 < 512 := by decide

def unevenHistory : History where
  segment := ⟨1, 2, 3, 4, 5⟩
  alignment := 512
  dataStart := 512
  logicalOrigin := 0
  physicalOrigin := 0
  alignment_pos := uneven_pos
  logical_fits := Nat.zero_le _
  physical_fits := Nat.zero_le _

/-- A block of `units` units. -/
def unevenBytes (units record place : UInt8) : List UInt8 :=
  [4, units, record, place, 0, 0, 0, 0, 0, 0, 32, 0] ++ List.replicate (16 * units.toNat - 12) 7

theorem length_unevenBytes {units record place : UInt8} (h : 11 ≤ units.toNat) :
    (unevenBytes units record place).length = 16 * units.toNat := by
  simp only [unevenBytes, List.length_append, List.length_cons, List.length_nil,
    List.length_replicate]
  omega

theorem take_unevenBytes {units record place : UInt8} (h : 11 ≤ units.toNat) :
    (unevenBytes units record place).take envelopePrefixBytes
      = [4, units, record, place, 0, 0, 0, 0, 0, 0, 32, 0] ++ List.replicate 20 7 := by
  unfold unevenBytes envelopePrefixBytes
  rw [List.take_append, List.take_replicate, List.take_of_length_le (by simp)]
  congr 2
  simp only [List.length_cons, List.length_nil]
  omega

/-- The block, where it says it lies. -/
def unevenLaid (units record place : UInt8) (h : 11 ≤ units.toNat) :
    Laid unevenCodec unevenHistory where
  records := ⟨⟨record.toNat, record.toNat + 1⟩, ⟨record.toNat, record.toNat + 1⟩,
    ⟨16 * place.toNat, 16 * place.toNat + 16 * units.toNat⟩⟩
  headerBytes := 32
  bodyBytes := 16 * units.toNat - 32
  paddingBytes := 0
  bytes := unevenBytes units record place
  encoded := by rw [length_unevenBytes h]; omega
  body := by unfold segmentBlockFixedBytes; omega
  span := by rw [length_unevenBytes h]
  fits := by have := record.toNat_lt; unfold u64Max; show record.toNat + 1 ≤ _; omega
  written := by rw [take_unevenBytes h]; rfl
  peeked := by
    rw [take_unevenBytes h, length_unevenBytes h]
    have hheader : headerBytes ([4, units, record, place, 0, 0, 0, 0, 0, 0, 32, 0]
        ++ List.replicate 20 7) = 32 := rfl
    exact if_pos ⟨hheader, by show 32 ≤ 16 * units.toNat; omega⟩
  family := by rw [take_unevenBytes h]; rfl
  checked := by
    refine (if_pos ⟨rfl, rfl⟩).trans ?_
    rw [length_unevenBytes h]
    show Except.ok (⟨⟨_, _, _⟩, 176, 16 * units.toNat - 176⟩ : CheckedBlock) = _
    have hbatch : 16 * units.toNat - 176
        = 16 * units.toNat - 32 - segmentBlockFixedBytes - 0 := by
      unfold segmentBlockFixedBytes
      omega
    rw [hbatch]
    rfl

/-- A block that one read holds all but 16 bytes of itself with, and one after it. -/
def unevenObjs : List (Obj unevenCodec unevenHistory) :=
  [.block (unevenLaid 31 0 32 (by decide)), .block (unevenLaid 11 1 63 (by decide))]

/-- A block that is longer than one read, and one after it. -/
def longObjs : List (Obj unevenCodec unevenHistory) :=
  [.block (unevenLaid 33 0 32 (by decide)), .block (unevenLaid 11 1 65 (by decide))]

/-- One read holds 512 bytes. -/
def unevenConfig : Config := ⟨true, 4096, 4096, 512, fun _ => 0⟩

theorem uneven_whole : Whole unevenObjs :=
  ⟨rfl, rfl, rfl, by decide, by decide, rfl, rfl, rfl, by decide +kernel, by decide, by decide, rfl,
    trivial⟩

theorem long_whole : Whole longObjs :=
  ⟨rfl, rfl, rfl, by decide, by decide, rfl, rfl, rfl, by decide +kernel, by decide, by decide, rfl,
    trivial⟩

/-- **The first part ends 16 bytes into the second block**, and the stretch, which is intact, cannot
    be read. -/
theorem uneven_unread : Whole unevenObjs ∧ unevenConfig.runBytes % unevenHistory.alignment = 0
    ∧ readParts unevenCodec unevenHistory (fileOf unevenObjs 0) unevenConfig (fun _ => false) 1184 2
        ⟨512, 0, 0⟩ = some (.error .malformedData)
    ∧ ¬ ReadInParts unevenCodec unevenHistory (fileOf unevenObjs 0) unevenConfig (fun _ => false)
      ⟨512, 0, 0⟩ unevenObjs 2 := by
  have hfails : readParts unevenCodec unevenHistory (fileOf unevenObjs 0) unevenConfig
      (fun _ => false) 1184 2 ⟨512, 0, 0⟩ = some (.error .malformedData) := by decide +kernel
  refine ⟨uneven_whole, by decide, hfails, ?_⟩
  rintro ⟨runs, hruns, _⟩
  have hend : (512 : Nat) + (flat unevenObjs).length = 1184 := by decide +kernel
  rw [show (⟨512, 0, 0⟩ : RunStart).position = 512 from rfl, hend, hfails] at hruns
  cases hruns

/-- **A block longer than one read** is a part of its own, and the one after it another. -/
theorem long_read : Clear unevenConfig.runBytes longObjs
    ∧ ReadInParts unevenCodec unevenHistory (fileOf longObjs 0) unevenConfig (fun _ => false)
      ⟨512, 0, 0⟩ longObjs 2 := by
  have hclear : Clear unevenConfig.runBytes longObjs := by
    have hfirst : longObjs ≠ [] := List.cons_ne_nil _ _
    have hsecond : longObjs.drop 1 ≠ [] := List.cons_ne_nil _ _
    refine (clear_part hfirst).mpr ⟨by decide +kernel, .inr ?_⟩
    rw [show (partOf unevenConfig.runBytes longObjs).length = 1 by decide +kernel]
    refine (clear_part hsecond).mpr ⟨by decide +kernel, .inr ?_⟩
    rw [show (partOf unevenConfig.runBytes (longObjs.drop 1)).length = 1 by decide +kernel,
      show (longObjs.drop 1).drop 1 = [] from rfl, Clear]
    trivial
  exact ⟨hclear, (@readInParts_iff unevenCodec unevenHistory longObjs [] _ [] _ long_whole rfl
    unevenConfig (by decide) 0 (fun _ => false) 2 le_rfl).mpr hclear⟩

end KwaqueStorage.SegmentRead
