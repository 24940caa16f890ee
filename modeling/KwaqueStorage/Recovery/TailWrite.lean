import KwaqueStorage.Base.Types
import KwaqueStorage.Lib.Checks
import KwaqueStorage.Lib.Files

/-!
# Writing a recovered tail

Restart fills the holes of a segment's tail in place: blocks made from PREPAREs, footers derived from the
verified prefix. A file is written in whole units, and an object begins and ends anywhere, so a write is
assembled around the objects: from the boundary before the first of them, through the bytes that survive
between them, to the boundary after the last. A write is flushed when an object ends on a boundary, or when
the next object lies past its last unit.

The invariant is about what the file *will* hold: the file with the write being assembled laid over it is the
old file with the objects laid over it, at every moment. Copying what survives does not change it, and an
object that is appended is laid over it.

The objects come from a walk forward through the file, so they are in file order and none lies over another.
What is asked of the file and of the budget may be refused, and then nothing is claimed.
-/

namespace KwaqueStorage.Recovery

open Lib

/-! ## The walk, as far as it writes -/

/-- `pending_write`. -/
structure PendingWrite where
  begin_ : Nat
  end_ : Nat
  bytes : List UInt8
  deriving DecidableEq

/-- What the walk asks of the file and of the budget. -/
inductive TailCall
  | size
  | read (at_ length : Nat)
  | reserve (bytes : Nat)
  | write (at_ length : Nat)
  deriving DecidableEq

/-- What the walk is given: the unit of its segment's alignment, whether it writes, and what may refuse. -/
structure TailWriter where
  unit : Nat
  unit_pos : 0 < unit
  writes : Bool
  answer : TailCall → Option Errc

/-- `maximum_file_io_bytes`. -/
def maximumFileIoBytes : Nat := 64 * 1024 * 1024

/-- The file, the write being assembled, and the extents that were written. -/
structure TailState where
  file : List UInt8
  pending : Option PendingWrite := none
  written : List Span := []
  deriving DecidableEq

namespace TailWriter

variable (w : TailWriter)

/-- `round_up`. -/
def roundUp (at_ : Nat) : Nat := (at_ + w.unit - 1) / w.unit * w.unit

def ask (call : TailCall) : Except Errc Unit :=
  match w.answer call with
  | some code => .error code
  | none => .ok ()

/-- `append`: bytes behind those of a write, in the bounds of its builder. -/
def append (data : List UInt8) (write : PendingWrite) : Except Errc PendingWrite := do
  w.ask (.reserve data.length)
  require (write.bytes.length + data.length ≤ maximumFileIoBytes) .resourceExhausted
  pure { write with bytes := write.bytes ++ data }

/-- The first part of `copy`: the bytes that the file has, up to a place. -/
def copyFile (file : List UInt8) (have_ : Nat) (write : PendingWrite) : Except Errc PendingWrite :=
  if have_ > write.end_ then do
    w.ask (.read write.end_ (have_ - write.end_))
    w.append ((file.drop write.end_).take (have_ - write.end_)) write
  else .ok write

/-- The second part: the zeros after them. -/
def copyZeros (have_ to_ : Nat) (write : PendingWrite) : Except Errc PendingWrite :=
  if to_ > have_ then w.append (List.replicate (to_ - have_) 0) write else .ok write

/-- `copy`: the bytes of the file from the end of a write to a place, then zeros. -/
def copy (file : List UInt8) (to_ : Nat) (write : PendingWrite) : Except Errc PendingWrite :=
  if write.end_ ≥ to_ then .ok write
  else do
    w.ask .size
    -- `std::clamp`
    let have_ := max write.end_ (min file.length to_)
    let write ← w.copyFile file have_ write
    let write ← w.copyZeros have_ to_ write
    pure { write with end_ := to_ }

/-- `flush`. -/
def flush (state : TailState) : Except Errc TailState :=
  match state.pending with
  | none => .ok state
  | some write => do
    let write ← w.copy state.file (w.roundUp write.end_) write
    w.ask (.write write.begin_ write.bytes.length)
    pure ⟨writeAt state.file write.begin_ write.bytes, none,
      state.written ++ [⟨write.begin_, write.begin_ + write.bytes.length⟩]⟩

/-- The first part of `place`: a write whose last unit ends before the object is done. -/
def flushBefore (at_ : Nat) (state : TailState) : Except Errc TailState :=
  match state.pending with
  | some write => if w.roundUp write.end_ ≤ at_ then w.flush state else .ok state
  | none => .ok state

/-- `place`: one filled object. -/
def place (object : Piece) (state : TailState) : Except Errc TailState :=
  if w.writes = false then .ok state
  else do
    let state ← w.flushBefore object.at_ state
    let start := object.at_ - object.at_ % w.unit
    let write ← w.copy state.file object.at_ (state.pending.getD ⟨start, start, []⟩)
    let write ← w.append object.bytes write
    let state := { state with pending := some { write with end_ := object.at_ + object.bytes.length } }
    if (object.at_ + object.bytes.length) % w.unit = 0 then w.flush state else pure state

/-- The filled objects of a walk, one after another. -/
def placeAll : List Piece → TailState → Except Errc TailState
  | [], state => .ok state
  | object :: objects, state => do
    let state ← w.place object state
    placeAll objects state

/-- A pass over a file, to the flush that ends it. -/
def materialize (file : List UInt8) (objects : List Piece) : Except Errc TailState := do
  let state ← w.placeAll objects ⟨file, none, []⟩
  w.flush state

end TailWriter

/-! ## What the file will hold -/

variable {w : TailWriter} {file : List UInt8}

/-- A write being assembled holds the bytes from its beginning to its end, and begins on a boundary. -/
structure PendingWrite.Whole (w : TailWriter) (write : PendingWrite) : Prop where
  length : write.begin_ + write.bytes.length = write.end_
  aligned : w.unit ∣ write.begin_

theorem TailWriter.append_eq_ok {data : List UInt8} {write write' : PendingWrite}
    (h : w.append data write = .ok write') : write' = { write with bytes := write.bytes ++ data } := by
  unfold TailWriter.append at h
  obtain ⟨_, _, h⟩ := bind_eq_ok.mp h
  obtain ⟨_, _, h⟩ := bind_eq_ok.mp h
  exact (pure_eq_ok.mp h).symm

/-- **Copying** takes a write up to a place, with what the file holds there. -/
theorem TailWriter.copy_spec {to_ : Nat} {write write' : PendingWrite} (hwhole : write.Whole w)
    (hle : write.end_ ≤ to_) (h : w.copy file to_ write = .ok write') :
    write'.Whole w ∧ write'.begin_ = write.begin_ ∧ write'.end_ = to_ ∧
      ∀ place, byteAt (writeAt file write'.begin_ write'.bytes) place =
        byteAt (writeAt file write.begin_ write.bytes) place := by
  unfold TailWriter.copy at h
  split at h
  next hge =>
    cases h
    exact ⟨hwhole, rfl, by omega, fun _ => rfl⟩
  next hlt =>
    obtain ⟨_, _, h⟩ := bind_eq_ok.mp h
    obtain ⟨copied, hcopied, h⟩ := bind_eq_ok.mp h
    obtain ⟨zeroed, hzeroed, h⟩ := bind_eq_ok.mp h
    have hdone := (pure_eq_ok.mp h).symm
    generalize hhave : max write.end_ (min file.length to_) = have_ at hcopied hzeroed
    have hcopy : copied = { write with
        bytes := write.bytes ++ (file.drop write.end_).take (have_ - write.end_) } := by
      unfold TailWriter.copyFile at hcopied
      split at hcopied
      next =>
        obtain ⟨_, _, hcopied⟩ := bind_eq_ok.mp hcopied
        exact append_eq_ok hcopied
      next hnone =>
        cases hcopied
        rw [show have_ - write.end_ = 0 by omega, List.take_zero, List.append_nil]
    have hzero : zeroed = { copied with bytes := copied.bytes ++ List.replicate (to_ - have_) 0 } := by
      unfold TailWriter.copyZeros at hzeroed
      split at hzeroed
      next => exact append_eq_ok hzeroed
      next hnone =>
        cases hzeroed
        rw [show to_ - have_ = 0 by omega, List.replicate_zero, List.append_nil]
    have hlength := hwhole.length
    have htaken : ((file.drop write.end_).take (have_ - write.end_)).length = have_ - write.end_ := by
      rw [List.length_take, List.length_drop]
      omega
    subst hdone hzero hcopy
    refine ⟨⟨?_, hwhole.aligned⟩, rfl, rfl, ?_⟩
    · simp only [List.length_append, htaken, List.length_replicate]
      omega
    · intro place
      dsimp only
      rw [byteAt_writeAt_append_own, byteAt_writeAt_append_own]
      · intro k hk
        rw [htaken] at hk
        rw [byteAt_take hk, byteAt_drop, hlength]
      · -- the zeros are what the file reads as after its end
        intro k hk
        rw [List.length_replicate] at hk
        rw [byteAt_zeros, byteAt_of_le]
        rw [List.length_append, htaken]
        omega

theorem TailWriter.le_roundUp (at_ : Nat) : at_ ≤ w.roundUp at_ := by
  have hdiv := Nat.div_add_mod (at_ + w.unit - 1) w.unit
  have hmod := Nat.mod_lt (at_ + w.unit - 1) w.unit_pos
  have := w.unit_pos
  unfold TailWriter.roundUp
  rw [Nat.mul_comm]
  omega

/-- The file once the write being assembled is in it. -/
def TailState.view (state : TailState) : List UInt8 :=
  match state.pending with
  | none => state.file
  | some write => writeAt state.file write.begin_ write.bytes

/-- **The invariant.** The view is the old file with the objects placed so far laid over it. A write being
    assembled is whole and ends where the last of them does, and what was written was written in whole units. -/
structure Materializing (w : TailWriter) (old : List UInt8) (placed : List Piece) (state : TailState) :
    Prop where
  bytes : ∀ place, byteAt state.view place = Piece.overlay (byteAt old) placed place
  grows : old.length ≤ state.view.length
  within : ∀ piece ∈ placed, ∀ place, piece.Covers place → place < state.view.length
  pending : ∀ write, state.pending = some write →
    write.Whole w ∧ ∀ last ∈ placed.getLast?, write.end_ = last.end_
  started : state.pending ≠ none → placed ≠ []
  units : ∀ span ∈ state.written, w.unit ∣ span.begin_ ∧ w.unit ∣ span.end_

variable {old : List UInt8} {placed : List Piece} {state state' : TailState}

theorem TailWriter.flush_spec (h : Materializing w old placed state) (hok : w.flush state = .ok state') :
    Materializing w old placed state' ∧ state'.pending = none := by
  unfold TailWriter.flush at hok
  split at hok
  next hnone =>
    cases hok
    exact ⟨h, hnone⟩
  next write hsome =>
    obtain ⟨copied, hcopied, hok⟩ := bind_eq_ok.mp hok
    obtain ⟨_, _, hok⟩ := bind_eq_ok.mp hok
    have hstate := pure_eq_ok.mp hok
    obtain ⟨hwhole, -⟩ := h.pending write hsome
    obtain ⟨hwhole', hbegin, hend, hview⟩ := copy_spec hwhole (w.le_roundUp _) hcopied
    have hold : state.view = writeAt state.file write.begin_ write.bytes := by
      unfold TailState.view
      rw [hsome]
    have hlonger : write.bytes.length ≤ copied.bytes.length := by
      have hlength := hwhole.length
      have hlength' := hwhole'.length
      have := w.le_roundUp write.end_
      omega
    subst hstate
    refine ⟨⟨?_, ?_, ?_, fun _ hnone => (nomatch hnone), fun hne => absurd rfl hne, ?_⟩, rfl⟩
    · intro place
      exact (hview place).trans (hold ▸ h.bytes place)
    · refine (hold ▸ h.grows).trans ?_
      show _ ≤ (writeAt state.file copied.begin_ copied.bytes).length
      rw [hbegin]
      exact length_writeAt_mono hlonger
    · intro piece hpiece place hcovers
      refine Nat.lt_of_lt_of_le (hold ▸ h.within piece hpiece place hcovers) ?_
      show _ ≤ (writeAt state.file copied.begin_ copied.bytes).length
      rw [hbegin]
      exact length_writeAt_mono hlonger
    · intro span hspan
      rcases List.mem_append.mp hspan with hspan | hspan
      · exact h.units span hspan
      · rw [List.mem_singleton.mp hspan]
        refine ⟨hwhole'.aligned, ?_⟩
        show w.unit ∣ copied.begin_ + copied.bytes.length
        rw [hwhole'.length, hend]
        exact Nat.dvd_mul_left _ _

/-- **One object.** -/
theorem TailWriter.place_spec (hwrites : w.writes = true) {object : Piece}
    (h : Materializing w old placed state) (hafter : ∀ last ∈ placed.getLast?, last.end_ ≤ object.at_)
    (hok : w.place object state = .ok state') : Materializing w old (placed ++ [object]) state' := by
  unfold TailWriter.place at hok
  rw [if_neg (by rw [hwrites]; exact nofun)] at hok
  obtain ⟨ready, hready, hok⟩ := bind_eq_ok.mp hok
  obtain ⟨copied, hcopied, hok⟩ := bind_eq_ok.mp hok
  obtain ⟨joined, hjoined, hok⟩ := bind_eq_ok.mp hok
  have hflushed : Materializing w old placed ready := by
    unfold TailWriter.flushBefore at hready
    split at hready
    next =>
      split at hready
      next => exact (flush_spec h hready).1
      next =>
        cases hready
        exact h
    next =>
      cases hready
      exact h
  -- a write that goes on, or an empty one from the boundary before the object
  obtain ⟨start, hstart, hwhole, hle, hview⟩ : ∃ start,
      ready.pending.getD ⟨object.at_ - object.at_ % w.unit, object.at_ - object.at_ % w.unit, []⟩ = start ∧
      start.Whole w ∧ start.end_ ≤ object.at_ ∧ ready.view = writeAt ready.file start.begin_ start.bytes := by
    rcases hpending : ready.pending with _ | write
    · refine ⟨_, rfl, ⟨rfl, ?_⟩, Nat.sub_le _ _, ?_⟩
      · exact Nat.dvd_sub_mod _
      · unfold TailState.view
        rw [hpending]
        rfl
    · obtain ⟨hwhole, hlast⟩ := hflushed.pending write hpending
      refine ⟨write, rfl, hwhole, ?_, ?_⟩
      · have hne := hflushed.started (by rw [hpending]; exact nofun)
        obtain ⟨last, hsome⟩ := List.getLast?_isSome.mpr hne |> Option.isSome_iff_exists.mp
        rw [hlast last hsome]
        exact hafter last hsome
      · unfold TailState.view
        rw [hpending]
  rw [hstart] at hcopied
  obtain ⟨hwhole', hbegin, hend, hsame⟩ := copy_spec hwhole hle hcopied
  have hlength := hwhole'.length
  rw [hend] at hlength
  rw [append_eq_ok hjoined] at hok
  have hplaced : Materializing w old (placed ++ [object]) { ready with
      pending := some ⟨copied.begin_, object.at_ + object.bytes.length, copied.bytes ++ object.bytes⟩ } := by
    have hlonger : ready.view.length ≤
        (writeAt ready.file copied.begin_ (copied.bytes ++ object.bytes)).length := by
      rw [hview, hbegin]
      refine length_writeAt_mono ?_
      have := hwhole.length
      rw [List.length_append]
      omega
    refine ⟨?_, hflushed.grows.trans hlonger, ?_, ?_, fun _ => by simp, hflushed.units⟩
    · intro place
      show byteAt (writeAt ready.file copied.begin_ (copied.bytes ++ object.bytes)) place = _
      rw [byteAt_writeAt_append, hlength, hsame, ← hview, hflushed.bytes, Piece.overlay_concat]
      rfl
    · intro piece hpiece place hcovers
      rcases List.mem_append.mp hpiece with hpiece | hpiece
      · exact Nat.lt_of_lt_of_le (hflushed.within piece hpiece place hcovers) hlonger
      · rw [List.mem_singleton.mp hpiece] at hcovers
        show place < (writeAt ready.file copied.begin_ (copied.bytes ++ object.bytes)).length
        refine lt_length_writeAt ?_ ?_
        · have hlt := hcovers.2
          unfold Piece.end_ at hlt
          rw [List.length_append]
          omega
        · have := hcovers.1
          omega
    · rintro write ⟨⟩
      refine ⟨⟨?_, hwhole'.aligned⟩, ?_⟩
      · show copied.begin_ + (copied.bytes ++ object.bytes).length = object.at_ + object.bytes.length
        rw [List.length_append]
        omega
      · intro last hlast
        rw [List.getLast?_concat] at hlast
        cases hlast
        rfl
  split at hok
  next => exact (flush_spec hplaced hok).1
  next => exact (pure_eq_ok.mp hok) ▸ hplaced

theorem TailWriter.placeAll_spec (hwrites : w.writes = true) : ∀ {objects placed : List Piece}
    {state state' : TailState}, Piece.InOrder (placed ++ objects) → Materializing w old placed state →
    w.placeAll objects state = .ok state' → Materializing w old (placed ++ objects) state'
  | [], placed, state, state', _, h, hok => by
    cases hok
    rw [List.append_nil]
    exact h
  | object :: objects, placed, state, state', horder, h, hok => by
    obtain ⟨next, hnext, hok⟩ := bind_eq_ok.mp hok
    have hafter : ∀ last ∈ placed.getLast?, last.end_ ≤ object.at_ := by
      intro last hlast
      exact (List.pairwise_append.mp horder).2.2 last (List.mem_of_getLast? hlast) object
        (List.mem_cons_self ..)
    have hsplit : placed ++ object :: objects = placed ++ [object] ++ objects := by
      rw [List.append_assoc, List.singleton_append]
    rw [hsplit] at horder ⊢
    exact placeAll_spec hwrites horder (place_spec hwrites h hafter hnext) hok

/-- **The frame of the tail write.** Once a pass has materialized its objects, each of them lies in its place,
    every other byte below the old end of the file is as it was, every other byte after it is zero, and the
    file was written in whole units. -/
theorem tail_write_frame (w : TailWriter) (hwrites : w.writes = true) (file : List UInt8)
    (objects : List Piece) (horder : Piece.InOrder objects) (state : TailState)
    (hok : w.materialize file objects = .ok state) :
    (∀ object ∈ objects, ∀ k, k < object.bytes.length →
      state.file[object.at_ + k]? = object.bytes[k]?) ∧
    (∀ place, place < file.length → (∀ object ∈ objects, ¬ object.Covers place) →
      state.file[place]? = file[place]?) ∧
    (∀ place, file.length ≤ place → place < state.file.length →
      (∀ object ∈ objects, ¬ object.Covers place) → state.file[place]? = some 0) ∧
    ∀ span ∈ state.written, w.unit ∣ span.begin_ ∧ w.unit ∣ span.end_ := by
  obtain ⟨assembled, hassembled, hok⟩ := bind_eq_ok.mp hok
  have hstart : Materializing w file [] ⟨file, none, []⟩ :=
    ⟨fun _ => rfl, Nat.le_refl _, fun _ hmem => (nomatch hmem), fun _ hsome => (nomatch hsome),
      fun hne => absurd rfl hne, fun _ hmem => (nomatch hmem)⟩
  have hplaced : Materializing w file objects assembled :=
    TailWriter.placeAll_spec hwrites (List.nil_append objects ▸ horder) hstart hassembled
  obtain ⟨hdone, hnone⟩ := TailWriter.flush_spec hplaced hok
  have hview : state.view = state.file := by
    unfold TailState.view
    rw [hnone]
  have hbytes := hdone.bytes
  have hgrows := hdone.grows
  have hwithin := hdone.within
  rw [hview] at hbytes hgrows hwithin
  refine ⟨?_, ?_, ?_, hdone.units⟩
  · intro object hobject k hk
    have hcovers : object.Covers (object.at_ + k) := ⟨by omega, by unfold Piece.end_; omega⟩
    rw [byteAt_of_lt (hwithin object hobject _ hcovers), hbytes, byteAt_of_lt hk,
      Piece.overlay_inside horder hobject hcovers, Nat.add_sub_cancel_left]
  · intro place hplace houtside
    rw [byteAt_of_lt (Nat.lt_of_lt_of_le hplace hgrows), hbytes, byteAt_of_lt hplace]
    rw [Piece.overlay_outside houtside]
  · intro place hplace hlt houtside
    rw [byteAt_of_lt hlt, hbytes, Piece.overlay_outside houtside, byteAt_of_le hplace]

/-- A file of nine bytes, written in units of four. -/
def exampleWriter : TailWriter := ⟨4, by decide, true, fun _ => none⟩

theorem tail_write_frame_example :
    exampleWriter.materialize [1, 2, 3, 4, 5, 6, 7, 8, 9] [⟨2, [20, 21]⟩, ⟨9, [22]⟩, ⟨14, [23]⟩] =
        .ok ⟨[1, 2, 20, 21, 5, 6, 7, 8, 9, 22, 0, 0, 0, 0, 23, 0], none, [⟨0, 4⟩, ⟨8, 12⟩, ⟨12, 16⟩]⟩ ∧
      ([1, 2, 20, 21, 5, 6, 7, 8, 9, 22, 0, 0, 0, 0, 23, 0] : List UInt8)[4]? = some 5 := by
  have horder : Piece.InOrder [⟨2, [20, 21]⟩, ⟨9, [22]⟩, ⟨14, [23]⟩] := by
    unfold Piece.InOrder
    decide
  have hok : exampleWriter.materialize [1, 2, 3, 4, 5, 6, 7, 8, 9] [⟨2, [20, 21]⟩, ⟨9, [22]⟩, ⟨14, [23]⟩] =
      .ok ⟨[1, 2, 20, 21, 5, 6, 7, 8, 9, 22, 0, 0, 0, 0, 23, 0], none, [⟨0, 4⟩, ⟨8, 12⟩, ⟨12, 16⟩]⟩ := by
    decide +kernel
  refine ⟨hok, ?_⟩
  exact (tail_write_frame exampleWriter rfl _ _ horder _ hok).2.1 4 (by decide) (by decide)

end KwaqueStorage.Recovery
