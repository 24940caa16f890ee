import KwaqueStorage.SegmentRead.Ends
import KwaqueStorage.SegmentRun.Published

/-!
# Why a read stopped

The reason a read gives is settled after its loop, from where its cursor stands (`output`). It is so
of the segment where the session's bounds are: where its sealed end is where the records end, and
where a source that is read from memory may be read as far as the session's durable bound goes.
-/

namespace KwaqueStorage.SegmentRead

open Scan Extent SegmentRun

variable {codec : RunCodec} {history : History}

/-- **The reason a read gave is so**, with the blocks past the offset it hands back. -/
def Stopped (objs : List (Obj codec history)) (bound : Bounds) (request : Request) (out : Output) :
    Prop :=
  let left := beyond (blocksOf objs) out.next.offset
  match out.stop with
  | .endOfSegment => bound.sealed_.isSome = true
      ∧ out.batches = (beyond (blocksOf objs) request.from_.offset).map batchOf
  | .notYetVisible => bound.visible ≤ out.next.offset
      ∨ ∃ first rest, left = first :: rest ∧ bound.visible < first.records.logical.end_
  | .shortOfVisibility =>
      (bound.shortOfVisibility = true
        ∧ ∀ first rest, left = first :: rest → bound.visible < first.records.logical.end_)
      ∨ ∀ laid ∈ left, bound.durable < laid.records.bytes.end_
  | .limit => out.batches = [] → request.atLeastOne = false
      ∧ ∃ first rest, left = first :: rest ∧ request.limit < first.batch.length
        ∧ out.wanted = first.batch.length
  | _ => True

/-- A sealed end is where the records end. -/
def Bounds.Seals (objs : List (Obj codec history)) (bound : Bounds) : Prop :=
  ∀ records, bound.sealed_ = some records →
    ∀ laid ∈ blocksOf objs, laid.records.logical.end_ ≤ records

section Stops

variable {objs : List (Obj codec history)} {bound : Bounds} {request : Request}

/-- Each block lies past the ones before it in the file too. -/
theorem continues_ends {objs : List (Obj codec history)} :
    ∀ {logical physical position : Nat}, Continues logical physical position objs →
      (blocksOf objs).Pairwise fun a b => a.records.bytes.end_ ≤ b.records.bytes.end_ := by
  induction objs with
  | nil =>
    intro logical physical position _
    exact List.Pairwise.nil
  | cons o rest ih =>
    intro logical physical position h
    cases o with
    | footer laid => exact ih (by exact h)
    | block laid =>
      obtain ⟨_, _, hplace, _, _, _, h⟩ := h
      rw [blocksOf_block, List.pairwise_cons]
      refine ⟨?_, ih h⟩
      intro other hmem
      have hbegin := (continues_within h other hmem).1
      have hspan := laid.span
      have hother := other.span
      omega

/-- Past the durable bound lies all that follows what lies past it. -/
theorem beyond_durable (hwhole : Whole objs) {cursor : Nat}
    (h : ∀ first rest, beyond (blocksOf objs) cursor = first :: rest →
      bound.durable < first.records.bytes.end_) :
    ∀ laid ∈ beyond (blocksOf objs) cursor, bound.durable < laid.records.bytes.end_ := by
  intro laid hmem
  have hordered : (beyond (blocksOf objs) cursor).Pairwise fun a b =>
      a.records.bytes.end_ ≤ b.records.bytes.end_ :=
    (continues_ends hwhole).sublist (List.dropWhile_sublist _)
  cases hleft : beyond (blocksOf objs) cursor with
  | nil =>
    rw [hleft] at hmem
    cases hmem
  | cons first rest =>
    have hfirst := h first rest hleft
    rw [hleft] at hmem hordered
    rcases List.mem_cons.mp hmem with rfl | hmem
    · exact hfirst
    · have := (List.pairwise_cons.mp hordered).1 laid hmem
      omega

/-- Nothing is left past a sealed end. -/
theorem Bounds.Seals.over (h : bound.Seals objs) {records cursor : Nat}
    (hsealed : bound.sealed_ = some records) (hle : records ≤ cursor) :
    beyond (blocksOf objs) cursor = [] := by
  have hall : ∀ laid ∈ blocksOf objs, laid.records.logical.end_ ≤ cursor := by
    intro laid hmem
    exact (h records hsealed laid hmem).trans hle
  have hnone := @beyond_append codec history (blocksOf objs) [] cursor hall
  rwa [List.append_nil] at hnone

/-- What a read that ended says of its end, from where its cursor stands. -/
theorem Ended.stopped (hseals : bound.Seals objs) {l : Loop} {stop : Stop}
    (hnext : l.next.offset = l.cursor)
    (htaken : beyond (blocksOf objs) l.cursor = [] →
      l.batches = (beyond (blocksOf objs) request.from_.offset).map batchOf)
    (h : Ended bound request True l (beyond (blocksOf objs) l.cursor) (some stop)) :
    Stopped objs bound request ⟨l.batches, l.next, stop, l.wanted⟩ := by
  unfold Stopped
  simp only [hnext]
  cases stop with
  | limit =>
    intro hnone
    rcases h with hsome | hbig
    · exact absurd hnone hsome
    · exact hbig
  | notYetVisible => exact h
  | endOfSegment =>
    obtain ⟨records, hsealed, hle⟩ := h
    exact ⟨by rw [hsealed]; rfl, htaken (hseals.over hsealed hle)⟩
  | belowStart => trivial
  | shortOfVisibility =>
    obtain ⟨hshort, hwhy⟩ := h
    refine .inl ⟨hshort, ?_⟩
    intro first rest hfront
    rcases hwhy with hseen | ⟨first', rest', hfront', hlt⟩ | ⟨records, hsealed, hle⟩
    · have := beyond_head hfront
      omega
    · rw [hfront] at hfront'
      obtain ⟨rfl, rfl⟩ := List.cons.inj hfront'
      exact hlt
    · rw [hseals.over hsealed hle] at hfront
      cases hfront
  | cancelled => trivial
  | failed why => trivial

/-- The reason that is settled where the read returns. -/
theorem output_stopped (hwhole : Whole objs) (hseals : bound.Seals objs) {l : Loop}
    (hexact : Exact objs bound request l) {why : Option Stop}
    (h : Ended bound request True l (beyond (blocksOf objs) l.cursor) why) :
    Stopped objs bound request (output bound l why) := by
  have htaken : beyond (blocksOf objs) l.cursor = [] →
      l.batches = (beyond (blocksOf objs) request.from_.offset).map batchOf := by
    intro hnone
    obtain ⟨taken, hfront, hbatches, _, _⟩ := hexact.taken
    rw [hbatches, hfront, hnone, List.append_nil]
  cases why with
  | some stop => exact h.stopped hseals hexact.next htaken
  | none =>
    unfold output
    simp only [Option.getD_none]
    split
    next hsealed =>
      have hended : Ended bound request True l (beyond (blocksOf objs) l.cursor)
          (some (sealedEnd bound)) := sealedEnd_ended hsealed
      exact hended.stopped hseals hexact.next htaken
    next =>
      refine .inr ?_
      show ∀ laid ∈ beyond (blocksOf objs) l.next.offset, _
      rw [hexact.next]
      exact beyond_durable hwhole (h trivial)

end Stops

/-- A read begins with no stretch to go on with. -/
theorem begin_resume {request : Request} : (Loop.begin_ history request).resume = none := by
  unfold Loop.begin_
  simp only
  split
  next => rfl
  next => rfl

/-- **Why a read stopped is so, and it stops.** In a finite segment, with a place that may be
    trusted and bounds that are the segment's, a read that returned says the truth, and no more
    than so many turns are answered before it returns, whatever is answered. -/
theorem read_stops (hstated : codec.Stated) {objs : List (Obj codec history)} (hwhole : Whole objs)
    {bound : Bounds} {request : Request} (hhonest : Honest objs request.from_)
    (hvisible : bound.visible ≤ noOffset) (hseals : bound.Seals objs) (zeroes : Nat)
    (config : Config) (entry : Entry) (w : World) :
    (∀ answers out,
      Lasts objs zeroes config bound request w answers (Loop.begin_ history request) →
      read codec history (fileOf objs zeroes) config bound request entry answers = some out →
      Stopped objs bound request out)
    ∧ ∃ most, ∀ answers,
      Lasts objs zeroes config bound request w answers (Loop.begin_ history request) →
      most < answers.length →
      (read codec history (fileOf objs zeroes) config bound request entry answers).isSome = true := by
  refine ⟨?_, turns objs bound w (Loop.begin_ history request), ?_⟩
  · intro answers out hlasts hread
    rcases read_fine hstated hwhole hhonest hlasts.along hread with
      ⟨stop, rfl, hbelow | ⟨why, hfailed⟩ | hcancelled | hended⟩
      | ⟨l, why, rfl, hexact, hended⟩
    · rw [hbelow]
      trivial
    · rw [hfailed]
      trivial
    · rw [hcancelled]
      trivial
    · have hat := hended (beyond (blocksOf objs) request.from_.offset)
      refine hat.stopped hseals rfl ?_
      intro hnone
      show [] = _
      rw [hnone]
      rfl
    · exact output_stopped hwhole hseals hexact hended
  · intro answers hlasts hlength
    unfold read
    simp only
    split
    next => rfl
    next =>
    split
    next => rfl
    next =>
    split
    next => rfl
    next =>
    split
    next => rfl
    next =>
    split
    next => rfl
    next =>
    split
    next => rfl
    next =>
      refine readLoop_ends hstated hwhole hhonest hvisible begin_exact ?_ hlasts hlength
      intro hresume
      rw [begin_resume] at hresume
      cases hresume

/-! ## Reads that are told otherwise -/

/-- The read of the sealed segment, of a session that leaves nothing behind. -/
def sealedCall (place : Nat) : Call where
  zeroes := 0
  config := ⟨false, 4096, 4096, 4096, fun _ => 0⟩
  bound := ⟨416, some 1, 1, false⟩
  request := ⟨⟨0, some place⟩, 1000, true⟩
  answers := [{ located := .ok (some (0, 32, 416)), written := 416, writtenThen := 416,
                writtenAfter := 416 }]

theorem sealedCall_lasts (place : Nat) :
    Lasts [.block nestedLaid] 0 (sealedCall place).config (sealedCall place).bound
      (sealedCall place).request ⟨0, 0⟩ (sealedCall place).answers
      (Loop.begin_ nestedHistory (sealedCall place).request) := by
  refine ⟨⟨by simp, by simp, ?_⟩, ⟨by simp, by simp⟩, ⟨0, 416⟩, ⟨by decide, by decide, by simp, ?_⟩, ?_⟩
  · intro base position end_ h
    obtain ⟨rfl, rfl, rfl⟩ : 0 = base ∧ 32 = position ∧ 416 = end_ := by simpa using h
    exact ⟨Nat.zero_le _, ⟨[], nestedLaid, [], rfl, rfl, rfl⟩, ⟨by simp, by simp⟩,
      ⟨by simp, by simp⟩⟩
  · intro base position end_ h
    obtain ⟨rfl, rfl, rfl⟩ : 0 = base ∧ 32 = position ∧ 416 = end_ := by simpa using h
    exact .inl le_rfl
  · intro l' _
    trivial

theorem sealedCall_seals (place : Nat) : (sealedCall place).bound.Seals [.block nestedLaid] := by
  intro records hrecords laid hmem
  obtain rfl : 1 = records := Option.some.inj hrecords
  obtain rfl : laid = nestedLaid := List.mem_singleton.mp hmem
  exact le_rfl

/-- A read of the feed, which may not be read as far as the session's bound says. -/
def fedCall : Call where
  zeroes := 0
  config := ⟨true, 4096, 4096, 4096, fun _ => 0⟩
  bound := ⟨416, none, 1, false⟩
  request := ⟨⟨0, none⟩, 1000, true⟩
  answers := [{ fed := some (deviceRun 32 [.block nestedLaid], 32) }]

theorem fedCall_truthful : fedCall.Truthful [.block nestedLaid] := by
  refine ⟨⟨by simp, ?_, by simp⟩, ?_⟩
  · intro run readable h
    cases h
    exact ⟨0, Nat.zero_le _, [.block nestedLaid], [], [], nestedLaid, rfl, rfl, rfl, rfl,
      filled_deviceRun nested_whole (by decide)⟩
  · intro l' _
    trivial

/-- What a read of the block says and returns, by the lengths of its batches. -/
def saidOf (call : Call) : Option (List Nat × Nat × Stop) :=
  (read nestedCodec nestedHistory (fileOf [.block nestedLaid] call.zeroes) call.config call.bound
    call.request call.entry call.answers).map fun out =>
      (out.batches.map fun b => b.bytes.length, out.next.offset, out.stop)

/-- **A place inside the batch, and a feed that is behind the session's bound, have a read say what
    is not so**: that it returned the segment to its end, and that nothing is left to read. -/
theorem stops_untold : nestedCodec.Stated ∧ Whole [.block nestedLaid]
    ∧ (∃ out, (sealedCall 224).Returns [.block nestedLaid] out
      ∧ ¬ Stopped [.block nestedLaid] (sealedCall 224).bound (sealedCall 224).request out)
    ∧ fedCall.Truthful [.block nestedLaid]
    ∧ ∃ out, fedCall.Returns [.block nestedLaid] out
      ∧ ¬ Stopped [.block nestedLaid] fedCall.bound fedCall.request out := by
  have hbeyond : beyond (blocksOf [Obj.block nestedLaid]) 0 = [nestedLaid] := by
    exact beyond_cons (by decide)
  refine ⟨nestedCodec_stated, nested_whole, ?_, fedCall_truthful, ?_⟩
  · have hsays : saidOf (sealedCall 224) = some ([16], 1, .endOfSegment) := by decide +kernel
    obtain ⟨out, hout, hsaid⟩ := Option.map_eq_some_iff.mp hsays
    obtain ⟨hlength, -, hstop⟩ := by simpa only [Prod.mk.injEq] using hsaid
    refine ⟨out, hout, ?_⟩
    intro hstopped
    unfold Stopped at hstopped
    simp only [hstop] at hstopped
    have hbatches : out.batches = (beyond (blocksOf [Obj.block nestedLaid]) 0).map batchOf :=
      hstopped.2
    rw [hbatches, hbeyond] at hlength
    exact absurd hlength (by decide +kernel)
  · have hsays : saidOf fedCall = some ([], 0, .shortOfVisibility) := by decide +kernel
    obtain ⟨out, hout, hsaid⟩ := Option.map_eq_some_iff.mp hsays
    obtain ⟨-, hnext, hstop⟩ := by simpa only [Prod.mk.injEq] using hsaid
    refine ⟨out, hout, ?_⟩
    intro hstopped
    unfold Stopped at hstopped
    simp only [hstop, hnext, hbeyond] at hstopped
    rcases hstopped with ⟨hshort, -⟩ | hleft
    · cases hshort
    · exact absurd (hleft nestedLaid List.mem_cons_self) (by decide)

/-- **A place where the block begins** ends the read where the segment ends. -/
theorem sealed_stops : ∃ out, (sealedCall 32).Returns [.block nestedLaid] out
    ∧ out.stop = .endOfSegment
    ∧ Stopped [.block nestedLaid] (sealedCall 32).bound (sealedCall 32).request out := by
  have hsays : saidOf (sealedCall 32) = some ([208], 1, .endOfSegment) := by decide +kernel
  obtain ⟨out, hout, hsaid⟩ := Option.map_eq_some_iff.mp hsays
  obtain ⟨-, -, hstop⟩ := by simpa only [Prod.mk.injEq] using hsaid
  refine ⟨out, hout, hstop, ?_⟩
  refine (read_stops nestedCodec_stated nested_whole ?_ (by decide) (sealedCall_seals 32) 0
    (sealedCall 32).config {} ⟨0, 0⟩).1 _ out (sealedCall_lasts 32) hout
  intro place hplace
  obtain rfl : 32 = place := Option.some.inj hplace
  exact .inl ⟨[], [.block nestedLaid], rfl, rfl⟩

end KwaqueStorage.SegmentRead
