import KwaqueStorage.Bytes.Publish
import KwaqueStorage.Bytes.Scatter

/-!
# Builders and buffers over one memory

A program keeps builders, buffers and scatter cursors in slots, over one memory that all of them share. A
result is put in a slot by move assignment, which starts a new presentation of the buffer there; a cursor that
is bound to an earlier presentation is refused from then on.

Beside it stands what the program is about: **flat byte strings**, one for each builder and buffer, and for each
cursor the bytes that were exported through it.
-/

namespace KwaqueStorage.Bytes

open Lib

/-- The objects of a program. -/
structure World where
  memory : Memory := []
  builders : Nat → Builder := fun _ => {}
  buffers : Nat → Buffer Window := fun _ => {}
  cursors : Nat → ScatterCursor := fun _ => {}

/-- What a program does with them. -/
inductive Operation
  | build (builder : Nat) (config : Config)
  | append (builder : Nat) (bytes : List UInt8)
  | appendFragmentCopy (builder : Nat) (bytes : List UInt8)
  | appendBuffer (builder buffer : Nat)
  | appendFragments (builder buffer count : Nat)
  | reserve (builder bytes : Nat)
  | reserveFragments (builder count : Nat)
  | shareBuilt (builder offset length target : Nat)
  | finish (builder target : Nat)
  | shareWhole (source target : Nat)
  | share (source offset length target : Nat)
  | copy (source target : Nat)
  | trimFront (buffer bytes : Nat)
  | trimBack (buffer bytes : Nat)
  | move (source target : Nat)
  | aim (cursor : Nat)
  | exportScatter (buffer cursor maxVectors maxBytes : Nat)
  deriving DecidableEq

/-- A buffer whose fragments were all taken. -/
def Buffer.emptied (buffer : Buffer Window) : Buffer Window :=
  Buffer.invalidate { buffer with fragments := [], size := 0, retainedBytes := 0 }

/-- A buffer without its first fragments, which were taken. -/
def Buffer.without (buffer : Buffer Window) (count : Nat) : Buffer Window :=
  if count = 0 then buffer
  else
    buffer.represent (buffer.fragments.drop count) (sizes (buffer.fragments.take count))
      (backing (buffer.fragments.take count))

namespace World

/-- Move assignment to the buffer in a slot. -/
def assign (w : World) (target : Nat) (buffer : Buffer Window) : World :=
  let renewed := { buffer with generation := (w.buffers target).invalidate.generation }
  { w with buffers := Function.update w.buffers target renewed }

/-- A builder's step, put back in its slot. -/
def built (w : World) (slot : Nat) (result : Except Errc Unit × Memory × Builder) :
    Except Errc (Option ScatterBatch) × World :=
  (result.1.map fun _ => none,
    { w with memory := result.2.1, builders := Function.update w.builders slot result.2.2 })

/-- A buffer that an operation gives, put in a slot. -/
def given (w : World) (target : Nat) (result : Except Errc (Buffer Window)) :
    Except Errc (Option ScatterBatch) × World :=
  match result with
  | .error e => (.error e, w)
  | .ok buffer => (.ok none, w.assign target buffer)

/-- A buffer's step, put back in its slot. -/
def trimmed (w : World) (slot : Nat) (result : Except Errc Unit × Buffer Window) :
    Except Errc (Option ScatterBatch) × World :=
  (result.1.map fun _ => none, { w with buffers := Function.update w.buffers slot result.2 })

/-- What a transfer that succeeds leaves of its source. -/
def drain (w : World) (slot : Nat) (left : Buffer Window) :
    Except Errc (Option ScatterBatch) × World → Except Errc (Option ScatterBatch) × World
  | (.error e, next) => (.error e, next)
  | (.ok answer, next) => (.ok answer, { next with buffers := Function.update w.buffers slot left })

/-- One operation. -/
def perform (w : World) : Operation → Except Errc (Option ScatterBatch) × World
  | .build slot config =>
    match config.validate with
    | .error e => (.error e, w)
    | .ok () => (.ok none, { w with builders := Function.update w.builders slot { config } })
  | .append slot bytes => w.built slot ((w.builders slot).append w.memory bytes)
  | .appendFragmentCopy slot bytes => w.built slot ((w.builders slot).appendFragmentCopy w.memory bytes)
  | .appendBuffer slot source =>
    w.drain source (w.buffers source).emptied
      (w.built slot ((w.builders slot).appendBuffer w.memory (w.buffers source)))
  | .appendFragments slot source count =>
    let step := (w.builders slot).appendFragments (w.buffers source) count
    w.drain source ((w.buffers source).without count) (w.built slot (step.1, w.memory, step.2))
  | .reserve slot bytes => w.built slot ((w.builders slot).reserve w.memory bytes)
  | .reserveFragments slot count => (((w.builders slot).reserveFragments count).map fun _ => none, w)
  | .shareBuilt slot offset length target => w.given target ((w.builders slot).share offset length)
  | .finish slot target =>
    let step := (w.builders slot).finish
    { w with builders := Function.update w.builders slot step.2 }.given target step.1
  | .shareWhole source target => w.given target (.ok (w.buffers source).shareWhole)
  | .share source offset length target => w.given target ((w.buffers source).share offset length)
  | .copy source target =>
    let copied := (w.buffers source).copy w.memory
    { w with memory := copied.1 }.given target (.ok copied.2)
  | .trimFront slot bytes => w.trimmed slot ((w.buffers slot).trimFront bytes)
  | .trimBack slot bytes => w.trimmed slot ((w.buffers slot).trimBack bytes)
  | .move source target =>
    if source = target then (.ok none, w)
    else
      let moved := w.assign target (w.buffers source)
      (.ok none, { moved with buffers := Function.update moved.buffers source (w.buffers source).emptied })
  | .aim cursor => (.ok none, { w with cursors := Function.update w.cursors cursor {} })
  | .exportScatter slot cursor maxVectors maxBytes =>
    match (w.buffers slot).exportScatter slot maxVectors maxBytes (w.cursors cursor) with
    | .error e => (.error e, w)
    | .ok (batch, next) => (.ok (some batch), { w with cursors := Function.update w.cursors cursor next })

end World

/-! ## Flat byte strings -/

/-- The byte strings of a program. -/
structure Flat where
  builders : Nat → List UInt8 := fun _ => []
  buffers : Nat → List UInt8 := fun _ => []
  taken : Nat → List UInt8 := fun _ => []

namespace Flat

/-- Adds to a builder. -/
def add (f : Flat) (slot : Nat) (bytes : List UInt8) : Flat :=
  { f with builders := Function.update f.builders slot (f.builders slot ++ bytes) }

/-- Replaces a buffer. -/
def set (f : Flat) (slot : Nat) (bytes : List UInt8) : Flat :=
  { f with buffers := Function.update f.buffers slot bytes }

theorem add_builders (f : Flat) (slot other : Nat) (bytes : List UInt8) : (f.add slot bytes).builders other
    = if other = slot then f.builders slot ++ bytes else f.builders other := by
  unfold add
  exact Function.update_apply ..

theorem set_buffers (f : Flat) (slot other : Nat) (bytes : List UInt8) : (f.set slot bytes).buffers other
    = if other = slot then bytes else f.buffers other := by
  unfold set
  exact Function.update_apply ..

/-- What an operation that succeeds does to the byte strings: `length` is how long the fragments are that a
    transfer of whole fragments moves, `exported` what an export gave. -/
def apply (f : Flat) (length : Nat) (exported : List UInt8) : Operation → Flat
  | .build slot _ => { f with builders := Function.update f.builders slot [] }
  | .append slot bytes => f.add slot bytes
  | .appendFragmentCopy slot bytes => f.add slot bytes
  | .appendBuffer slot source => (f.add slot (f.buffers source)).set source []
  | .appendFragments slot source _ =>
    (f.add slot ((f.buffers source).take length)).set source ((f.buffers source).drop length)
  | .reserve _ _ => f
  | .reserveFragments _ _ => f
  | .shareBuilt slot offset count target => f.set target (((f.builders slot).drop offset).take count)
  | .finish slot target =>
    { f with builders := Function.update f.builders slot [] }.set target (f.builders slot)
  | .shareWhole source target => f.set target (f.buffers source)
  | .share source offset count target => f.set target (((f.buffers source).drop offset).take count)
  | .copy source target => f.set target (f.buffers source)
  | .trimFront slot bytes => f.set slot ((f.buffers slot).drop bytes)
  | .trimBack slot bytes => f.set slot ((f.buffers slot).take ((f.buffers slot).length - bytes))
  | .move source target =>
    if source = target then f else (f.set target (f.buffers source)).set source []
  | .aim cursor => { f with taken := Function.update f.taken cursor [] }
  | .exportScatter _ cursor _ _ =>
    { f with taken := Function.update f.taken cursor (f.taken cursor ++ exported) }

end Flat

namespace World

/-- How long the fragments are that an operation moves. -/
def lengthOf (w : World) : Operation → Nat
  | .appendFragments _ source count => sizes ((w.buffers source).fragments.take count)
  | _ => 0

/-- The bytes of a batch, if there is one. -/
def exported (memory : Memory) (answer : Option ScatterBatch) : List UInt8 :=
  answer.elim [] fun batch => segmentBytes memory batch.segments

/-- The byte strings after an operation that was answered so: those before it, if it was refused. -/
def answered (w : World) (f : Flat) (operation : Operation) (answer : Except Errc (Option ScatterBatch))
    (memory : Memory) : Flat :=
  match answer with
  | .error _ => f
  | .ok batch => f.apply (w.lengthOf operation) (exported memory batch) operation

/-- The byte strings after an operation. -/
def flatAfter (w : World) (f : Flat) (operation : Operation) : Flat :=
  w.answered f operation (w.perform operation).1 (w.perform operation).2.memory

end World

end KwaqueStorage.Bytes
