import KwaqueStorage.SegmentRead.Exact

/-!
# Reads one after another

A read returns the first blocks past the offset it was asked for, as many as its bounds and limits
let it, and says where they end; reads that each go on where the one before ended return every batch
once and in order, whatever their bounds, their sources and the places they were handed, and across
a move of the session to the sealed segment.
-/

namespace KwaqueStorage.SegmentRead

open Scan Extent SegmentRun

variable {codec : RunCodec} {history : History}

/-- What was answered in each turn of a read that was reached, judged where its cursor stood. -/
def Along (codec : RunCodec) (history : History) (file : File) (config : Config) (bound : Bounds)
    (request : Request) (holds : Loop → Answers → Prop) : List Answers → Loop → Prop
  | [], _ => True
  | answers :: more, l => holds l answers
      ∧ ∀ l', turn codec history file config bound request answers l = .goes l' →
        Along codec history file config bound request holds more l'

theorem Along.imp {file : File} {config : Config} {bound : Bounds} {request : Request}
    {holds holds' : Loop → Answers → Prop} (himp : ∀ l a, holds l a → holds' l a)
    {answers : List Answers} :
    ∀ {l : Loop}, Along codec history file config bound request holds answers l →
      Along codec history file config bound request holds' answers l := by
  induction answers with
  | nil =>
    intro l _
    trivial
  | cons a more ih =>
    intro l h
    exact ⟨himp l a h.1, fun l' hturn => ih (h.2 l' hturn)⟩

/-- One read: the file as it was, what the session was given, and what was answered. -/
structure Call where
  zeroes : Nat
  config : Config
  bound : Bounds
  request : Request
  entry : Entry := {}
  answers : List Answers

namespace Call

/-- The answers are true of the segment. -/
def Truthful (objs : List (Obj codec history)) (call : Call) : Prop :=
  Along codec history (fileOf objs call.zeroes) call.config call.bound call.request
    (fun l answers => answers.Tells objs l.cursor) call.answers
    (Loop.begin_ history call.request)

/-- What the read returned. -/
def Returns (objs : List (Obj codec history)) (call : Call) (out : Output) : Prop :=
  read codec history (fileOf objs call.zeroes) call.config call.bound call.request call.entry
    call.answers = some out

end Call

/-- **What a read returned is exact**: the first blocks past the offset, each whole, visible and
    durable, with the bytes that were appended. -/
def Returned (objs : List (Obj codec history)) (bound : Bounds) (asked : Nat) (out : Output) : Prop :=
  ∃ taken rest, beyond (blocksOf objs) asked = taken ++ rest
    ∧ out.batches = taken.map batchOf
    ∧ (∀ laid ∈ taken, laid.records.logical.end_ ≤ bound.visible
      ∧ laid.records.bytes.end_ ≤ bound.durable)
    ∧ out.next.offset = endOf asked taken

/-- Reads that each begin where the one before says the next goes on. -/
def Chains (objs : List (Obj codec history)) : Position → List (Call × Output) → Prop
  | _, [] => True
  | from_, (call, out) :: rest => call.request.from_ = from_ ∧ call.Truthful objs
      ∧ call.Returns objs out ∧ Chains objs out.next rest

section Reads

variable {objs : List (Obj codec history)} {bound : Bounds} {request : Request} {config : Config}

theorem begin_exact : Exact objs bound request (Loop.begin_ history request) := by
  have hfrom : Exact objs bound request
      { cursor := request.from_.offset, hint := request.from_.block, next := request.from_ } := by
    refine ⟨⟨[], rfl, rfl, by simp, rfl⟩, rfl, ?_, ?_, by simp⟩
    · intro place hplace
      exact .inr ⟨hplace, rfl⟩
    · intro place hplace
      exact ⟨hplace, rfl⟩
  unfold Loop.begin_
  simp only
  split
  next => exact hfrom.forgetHint
  next => exact hfrom

variable (hstated : codec.Stated) (hwhole : Whole objs) {zeroes : Nat}

include hstated hwhole

/-- **The loop**, by induction on the answers. -/
theorem readLoop_fine (hhonest : Honest objs request.from_) {bears : Prop}
    {answers : List Answers} :
    ∀ {l : Loop}, Exact objs bound request l →
      Along codec history (fileOf objs zeroes) config bound request
        (fun l a => a.Tells objs l.cursor ∧ (bears → a.Bears objs bound l.cursor)) answers l →
      ∀ {out : Output}, readLoop codec history (fileOf objs zeroes) config bound request answers l
        = some out →
        ∃ l' why, out = output bound l' why ∧ Exact objs bound request l'
          ∧ Ended bound request bears l' (beyond (blocksOf objs) l'.cursor) why := by
  induction answers with
  | nil =>
    intro l _ _ out hout
    cases hout
  | cons a more ih =>
    intro l hexact halong out hout
    have hfine := @turn_fine codec history objs bound request config a l bears hstated hwhole zeroes
      hexact hhonest halong.1.1 halong.1.2
    unfold readLoop at hout
    cases hturn : turn codec history (fileOf objs zeroes) config bound request a l with
    | goes l' =>
      rw [hturn] at hfine hout
      exact ih hfine (halong.2 l' hturn) hout
    | ends l' why =>
      rw [hturn] at hfine hout
      exact ⟨l', why, (Option.some.inj hout).symm, hfine⟩

/-- What `read` answers before its loop, or from it. -/
theorem read_fine (hhonest : Honest objs request.from_) {bears : Prop} {entry : Entry}
    {answers : List Answers}
    (halong : Along codec history (fileOf objs zeroes) config bound request
      (fun l a => a.Tells objs l.cursor ∧ (bears → a.Bears objs bound l.cursor)) answers
      (Loop.begin_ history request)) {out : Output}
    (h : read codec history (fileOf objs zeroes) config bound request entry answers = some out) :
    (∃ stop, out = ⟨[], request.from_, stop, 0⟩
      ∧ (stop = .belowStart ∨ (∃ why, stop = .failed why) ∨ stop = .cancelled
        ∨ ∀ left : List (Laid codec history), Ended bound request bears
          { cursor := request.from_.offset, hint := none, next := request.from_ } left
          (some stop)))
      ∨ ∃ l why, out = output bound l why ∧ Exact objs bound request l
        ∧ Ended bound request bears l (beyond (blocksOf objs) l.cursor) why := by
  unfold read at h
  simp only at h
  split at h
  next => exact .inl ⟨_, (Option.some.inj h).symm, .inr (.inl ⟨_, rfl⟩)⟩
  next =>
  split at h
  next => exact .inl ⟨_, (Option.some.inj h).symm, .inr (.inl ⟨_, rfl⟩)⟩
  next =>
  split at h
  next => exact .inl ⟨_, (Option.some.inj h).symm, .inl rfl⟩
  next =>
  split at h
  next hsealed =>
    refine .inl ⟨_, (Option.some.inj h).symm, .inr (.inr (.inr ?_))⟩
    intro left
    exact sealedEnd_ended hsealed
  next =>
  split at h
  next hseen =>
    refine .inl ⟨_, (Option.some.inj h).symm, .inr (.inr (.inr ?_))⟩
    intro left
    exact unseen_ended hseen
  next =>
  split at h
  next why _ =>
    refine .inl ⟨_, (Option.some.inj h).symm, ?_⟩
    unfold failure
    split
    next => exact .inr (.inr (.inl rfl))
    next => exact .inr (.inl ⟨_, rfl⟩)
  next => exact .inr (readLoop_fine hstated hwhole hhonest begin_exact halong h)

/-- **One read.** And the place it hands back may be trusted as far as the one it was handed. -/
theorem read_returned {call : Call} (hhonest : Honest objs call.request.from_)
    (htruthful : call.Truthful objs) {out : Output} (h : call.Returns objs out) :
    Returned objs call.bound call.request.from_.offset out ∧ Honest objs out.next := by
  have halong : Along codec history (fileOf objs call.zeroes) call.config call.bound call.request
      (fun l a => a.Tells objs l.cursor ∧ (False → a.Bears objs call.bound l.cursor)) call.answers
      (Loop.begin_ history call.request) :=
    htruthful.imp (fun _ _ htells => ⟨htells, False.elim⟩)
  rcases read_fine hstated hwhole hhonest halong h with ⟨stop, rfl, _⟩ | ⟨l, why, rfl, hexact, _⟩
  · exact ⟨⟨[], _, rfl, rfl, by simp, rfl⟩, hhonest⟩
  · obtain ⟨taken, hfront, hbatches, hwithin, hcursor⟩ := hexact.taken
    refine ⟨⟨taken, _, hfront, hbatches, hwithin, hexact.next.trans hcursor⟩, ?_⟩
    intro place hplace
    rcases hexact.place place hplace with hbegins | ⟨hfrom, hasked⟩
    · exact .inl hbegins
    · show _ ∨ ∀ zeroes, ¬ Misleads codec history (fileOf objs zeroes) place l.next.offset
      rw [hexact.next, hasked]
      exact hhonest place hfrom

/-- **A chain of reads** returns every batch past the offset it began at once and in order, as far as
    it got, each of its reads the first of those that were left. -/
theorem chain_exact {reads : List (Call × Output)} :
    ∀ {from_ : Position}, Honest objs from_ → Chains objs from_ reads →
      (∀ r ∈ reads, Returned objs r.1.bound r.1.request.from_.offset r.2)
        ∧ ∃ taken rest, beyond (blocksOf objs) from_.offset = taken ++ rest
          ∧ (reads.map fun r => r.2.batches).flatten = taken.map batchOf
          ∧ (reads.getLast?.map fun r => r.2.next.offset).getD from_.offset
            = endOf from_.offset taken := by
  induction reads with
  | nil =>
    intro from_ _ _
    exact ⟨by simp, [], _, rfl, rfl, rfl⟩
  | cons r reads ih =>
    intro from_ hhonest hchains
    obtain ⟨call, out⟩ := r
    obtain ⟨rfl, htruthful, hreturns, hrest⟩ := hchains
    obtain ⟨hreturned, hnext⟩ := read_returned hstated hwhole hhonest htruthful hreturns
    obtain ⟨hall, more, left, hmore, hbatches, hlast⟩ := ih hnext hrest
    refine ⟨?_, ?_⟩
    · intro r hr
      rcases List.mem_cons.mp hr with rfl | hr
      · exact hreturned
      · exact hall r hr
    · obtain ⟨taken, rest, hfront, hown, _, hoffset⟩ := hreturned
      -- what is past the end of what the first read took is what it left
      have hbeyond : beyond (blocksOf objs) (endOf call.request.from_.offset taken) = rest :=
        beyond_endOf (continues_rising hwhole).1 hfront
      rw [hoffset, hbeyond] at hmore
      refine ⟨taken ++ more, left, ?_, ?_, ?_⟩
      · rw [hfront, hmore, List.append_assoc]
      · rw [List.map_cons, List.flatten_cons, hbatches, hown, List.map_append]
      · rw [endOf_append, ← hoffset, ← hlast, List.getLast?_cons]
        cases reads.getLast? with
        | none => rfl
        | some last => rfl

end Reads

/-! ## A place inside a batch -/

/-- A codec of objects that say how many units of 32 bytes they are, which record they keep, and in
    which unit of the file they begin. -/
def nestedCodec : RunCodec where
  peekPrefix raw :=
    if headerBytes raw = 32 ∧ 32 ≤ 32 * raw[1]!.toNat then .ok (32 * raw[1]!.toNat)
    else .error ⟨.malformedData, false⟩
  headerCrc _ := true
  extents raw length h := by
    split at h
    next hheader =>
      cases h
      exact ⟨hheader.1.ge, hheader.1.le.trans hheader.2⟩
    next => cases h
  family raw := raw[0]!.toNat
  checkBlock bytes e :=
    if e.location.position = 32 * bytes[3]!.toNat ∧ e.location.physicalBegin = bytes[2]!.toNat then
      .ok ⟨⟨⟨bytes[2]!.toNat, bytes[2]!.toNat + 1⟩, ⟨bytes[2]!.toNat, bytes[2]!.toNat + 1⟩,
        ⟨32 * bytes[3]!.toNat, 32 * bytes[3]!.toNat + bytes.length⟩⟩, 176, bytes.length - 176⟩
    else .error .wrongContext

theorem nestedCodec_stated : nestedCodec.Stated := by
  intro bytes e e' c c' h h'
  simp only [nestedCodec] at h h'
  split at h
  next =>
    split at h'
    next => exact (Except.ok.inj h).symm.trans (Except.ok.inj h')
    next => cases h'
  next => cases h

theorem nested_pos : 0 < 32 := by decide

def nestedHistory : History where
  segment := ⟨1, 2, 3, 4, 5⟩
  alignment := 32
  dataStart := 32
  logicalOrigin := 0
  physicalOrigin := 0
  alignment_pos := nested_pos
  logical_fits := Nat.zero_le _
  physical_fits := Nat.zero_le _

/-- A block's bytes, its batch ending with `batch`. -/
def nestedBytes (units place : UInt8) (batch : List UInt8) : List UInt8 :=
  [4, units, 0, place, 0, 0, 0, 0, 0, 0, 32, 0]
    ++ List.replicate (32 * units.toNat - 12 - batch.length) 7 ++ batch

/-- A block whose batch ends with what reads as a block of the same record. -/
def nestedLaid : Laid nestedCodec nestedHistory where
  records := ⟨⟨0, 1⟩, ⟨0, 1⟩, ⟨32, 416⟩⟩
  headerBytes := 32
  bodyBytes := 352
  paddingBytes := 0
  bytes := nestedBytes 12 1 (nestedBytes 6 7 [])
  encoded := by decide +kernel
  body := by decide
  span := by decide +kernel
  fits := by decide +kernel
  written := by decide +kernel
  peeked := by decide +kernel
  family := by decide +kernel
  checked := by decide +kernel

/-- A read of record zero that was handed a place. -/
def nestedCall (place : Nat) : Call where
  zeroes := 0
  config := ⟨true, 4096, 4096, 4096, fun _ => 0⟩
  bound := ⟨416, none, 1, false⟩
  request := ⟨⟨0, some place⟩, 1000, true⟩
  answers := [{ located := .ok (some (0, 32, 416)), written := 416, writtenThen := 416 }]

theorem nestedCall_truthful (place : Nat) : (nestedCall place).Truthful [.block nestedLaid] := by
  refine ⟨⟨by simp, by simp, ?_⟩, ?_⟩
  · intro base position end_ h
    obtain ⟨rfl, rfl, rfl⟩ : 0 = base ∧ 32 = position ∧ 416 = end_ := by simpa using h
    exact ⟨Nat.zero_le _, ⟨[], nestedLaid, [], rfl, rfl, rfl⟩, ⟨by simp, by simp⟩,
      ⟨by simp, by simp⟩⟩
  · intro l' _
    trivial

theorem nested_whole : Whole [Obj.block nestedLaid] :=
  ⟨rfl, rfl, rfl, by decide, by decide +kernel, rfl, trivial⟩

/-- What the reads return, by the lengths of their batches. -/
theorem nestedCall_returns {place : Nat} {lengths : List Nat}
    (h : (read nestedCodec nestedHistory (fileOf [.block nestedLaid] 0)
      (nestedCall place).config (nestedCall place).bound (nestedCall place).request {}
      (nestedCall place).answers).map (fun out => out.batches.map fun b => b.bytes.length)
      = some lengths) :
    ∃ out, (nestedCall place).Returns [.block nestedLaid] out
      ∧ (out.batches.map fun b => b.bytes.length) = lengths := by
  obtain ⟨out, hout, hlength⟩ := Option.map_eq_some_iff.mp h
  exact ⟨out, hout, hlength⟩

/-- **The place inside the batch misleads the read**: it returns what the batch holds there. -/
theorem nested_misled : nestedCodec.Stated ∧ Whole [.block nestedLaid]
    ∧ (nestedCall 224).Truthful [.block nestedLaid]
    ∧ ∃ out, (nestedCall 224).Returns [.block nestedLaid] out
      ∧ ¬ Returned [.block nestedLaid] (nestedCall 224).bound 0 out := by
  refine ⟨nestedCodec_stated, nested_whole, nestedCall_truthful 224, ?_⟩
  obtain ⟨out, hout, hlength⟩ := @nestedCall_returns 224 [16] (by decide +kernel)
  refine ⟨out, hout, ?_⟩
  rintro ⟨taken, rest, hfront, hbatches, -, -⟩
  have hbeyond : beyond (blocksOf [Obj.block nestedLaid]) 0 = [nestedLaid] := by
    exact beyond_cons (by decide)
  rw [hbatches, List.map_map] at hlength
  cases taken with
  | nil => cases hlength
  | cons laid taken =>
    rw [hbeyond] at hfront
    obtain ⟨rfl, -⟩ := List.cons.inj hfront
    have hsame := (List.cons.inj hlength).1
    exact absurd hsame (by decide +kernel)

/-- **A place where the block begins** leads to its batch. -/
theorem nested_exact : ∃ out, Chains [.block nestedLaid] ⟨0, some 32⟩ [(nestedCall 32, out)]
    ∧ (out.batches.map fun b => b.bytes.length) = [208]
    ∧ Returned [.block nestedLaid] (nestedCall 32).bound 0 out := by
  obtain ⟨out, hout, hlength⟩ := @nestedCall_returns 32 [208] (by decide +kernel)
  have hchains : Chains [.block nestedLaid] ⟨0, some 32⟩ [(nestedCall 32, out)] :=
    ⟨rfl, nestedCall_truthful 32, hout, trivial⟩
  have hhonest : Honest [.block nestedLaid] ⟨0, some 32⟩ := by
    intro place hplace
    obtain rfl : 32 = place := by simpa using hplace
    exact .inl ⟨[], [.block nestedLaid], rfl, rfl⟩
  have hexact := (chain_exact nestedCodec_stated nested_whole hhonest hchains).1
  exact ⟨out, hchains, hlength, hexact _ List.mem_cons_self⟩

end KwaqueStorage.SegmentRead
