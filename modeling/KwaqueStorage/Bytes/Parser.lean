import KwaqueStorage.Bytes.Buffer
import KwaqueStorage.Lib.Slots

/-!
# The parser of a buffer

`fragmented_buffer_parser` reads a buffer through a cursor that is kept as a fragment, an offset into it and
a count of the bytes behind it, with the bounds of the cursor's fragment in a cache. Reads that stay within
that fragment go through the cache alone; the others walk the fragments. The cache is reloaded in three
places: on construction, on crossing a fragment's end and on going back to a checkpoint.

Every function here is the function of the source, its error paths included. What they come to is in the
next module.
-/

namespace KwaqueStorage.Bytes

open Lib

/-- Storage as the bytes it holds: a buffer's bytes do not change after it was published. -/
instance {α : Type} : Storage (List α) where
  size := List.length
  share storage skip take := (storage.drop skip).take take
  size_share {storage skip take} h := by
    rw [List.length_take, List.length_drop]
    omega

/-- `max_parser_checkpoints`. -/
def maxParserCheckpoints : Nat := 8

/-- `fragmented_buffer_parser::position`. -/
structure Position where
  fragment : Nat := 0
  offset : Nat := 0
  consumed : Nat := 0
  deriving DecidableEq

/-- `fragmented_buffer_parser`. The cached bounds are kept as the index of the fragment they bound, the
    array of checkpoints and its depth as a list, the last one pushed in front. -/
structure Parser where
  buffer : Buffer (List UInt8) := {}
  position : Position := {}
  cache : Option Nat := none
  checkpoints : List Position := []
  deriving DecidableEq

/-- The storage of a fragment, or none past the last. -/
def Buffer.storageAt (buffer : Buffer (List UInt8)) (index : Nat) : List UInt8 :=
  match buffer.fragments[index]? with
  | some fragment => fragment.storage
  | none => []

namespace Parser

/-- `bytes_remaining`. -/
def bytesRemaining (p : Parser) : Nat := p.buffer.size - p.position.consumed

/-- `refresh_cache`. -/
def refreshCache (p : Parser) : Parser :=
  { p with cache := if p.position.fragment < p.buffer.fragments.length
      then some p.position.fragment else none }

/-- `normalize`: moves past the fragments the cursor has used up. -/
def normalize (p : Parser) : Parser :=
  if p.position.fragment < p.buffer.fragments.length then
    if p.position.offset < (p.buffer.storageAt p.position.fragment).length then
      { p with cache := some p.position.fragment }
    else
      normalize { p with position := { p.position with fragment := p.position.fragment + 1, offset := 0 } }
  else { p with cache := none }
termination_by p.buffer.fragments.length - p.position.fragment

/-- A parser over a buffer. -/
def make (buffer : Buffer (List UInt8)) : Parser := normalize { buffer }

/-- The loop of `advance`. It does not go back if it fails on the way. -/
def advanceLoop (p : Parser) (remaining : Nat) : Except Errc Unit × Parser :=
  if remaining = 0 then (.ok (), p)
  else
    match p.cache with
    | none => (.error .malformedData, p)
    | some index =>
      let fragmentSize := (p.buffer.storageAt index).length
      if p.position.offset ≥ fragmentSize then (.error .malformedData, p)
      else
        let span := min (fragmentSize - p.position.offset) remaining
        if p.position.offset + span = fragmentSize then
          advanceLoop (refreshCache { p with position :=
            { p.position with fragment := p.position.fragment + 1, offset := 0 } }) (remaining - span)
        else
          advanceLoop { p with position := { p.position with offset := p.position.offset + span } }
            (remaining - span)
termination_by remaining

/-- `advance`. The counts of bytes are 64 bits wide. -/
def advance (p : Parser) (bytes : Nat) : Except Errc Unit × Parser :=
  if p.position.consumed + bytes < 2 ^ 64 then
    match advanceLoop p bytes with
    | (.error e, q) => (.error e, q)
    | (.ok (), q) =>
      (.ok (), { q with position := { q.position with consumed := p.position.consumed + bytes } })
  else (.error .malformedData, p)

/-- The loop of `copy_out`: `written` is what it has copied, `count` what it has yet to copy. -/
def copyLoop (buffer : Buffer (List UInt8)) (fragment offset count : Nat) (written : List UInt8) :
    Except Errc (List UInt8) :=
  if count = 0 then .ok written
  else if fragment ≥ buffer.fragments.length then .error .malformedData
  else if offset ≥ (buffer.storageAt fragment).length then
    copyLoop buffer (fragment + 1) 0 count written
  else
    let span := min ((buffer.storageAt fragment).length - offset) count
    copyLoop buffer fragment (offset + span) (count - span)
      (written ++ ((buffer.storageAt fragment).drop offset).take span)
termination_by count + (buffer.fragments.length - fragment)

/-- Whether a read of so many bytes lies inside the fragment whose bounds are cached. -/
def cacheHolds (p : Parser) (size : Nat) (source : Position) : Option Nat :=
  match p.cache with
  | some index =>
    if source = p.position ∧ size ≤ (p.buffer.storageAt index).length - source.offset then some index
    else none
  | none => none

/-- `copy_out`, into a destination of so many bytes. -/
def copyOut (p : Parser) (size : Nat) (source : Position) : Except Errc (List UInt8) :=
  if size > p.bytesRemaining then .error .truncatedData
  else
    match p.cacheHolds size source with
    | some index => .ok (((p.buffer.storageAt index).drop source.offset).take size)
    | none => copyLoop p.buffer source.fragment source.offset size []

/-- `skip`. -/
def skip (p : Parser) (bytes : Nat) : Except Errc Unit × Parser :=
  if bytes > p.bytesRemaining then (.error .outOfRange, p)
  else if bytes = 0 then (.ok (), p)
  else p.advance bytes

/-- `peek_to`. -/
def peekTo (p : Parser) (size : Nat) : Except Errc (List UInt8) :=
  if size = 0 then .ok [] else p.copyOut size p.position

/-- `read_to`. -/
def readTo (p : Parser) (size : Nat) : Except Errc (List UInt8) × Parser :=
  if size = 0 then (.ok [], p)
  else
    match p.copyOut size p.position with
    | .error e => (.error e, p)
    | .ok copied =>
      match p.advance size with
      | (.error e, q) => (.error e, q)
      | (.ok (), q) => (.ok copied, q)

/-- `peek_buffer`. -/
def peekBuffer (p : Parser) (bytes : Nat) : Except Errc (Buffer (List UInt8)) :=
  if bytes > p.bytesRemaining then .error .truncatedData
  else if bytes = 0 then .ok {}
  else p.buffer.shareFrom p.position.fragment p.position.offset bytes

/-- `read_buffer`. -/
def readBuffer (p : Parser) (bytes : Nat) : Except Errc (Buffer (List UInt8)) × Parser :=
  match p.peekBuffer bytes with
  | .error e => (.error e, p)
  | .ok shared =>
    if bytes = 0 then (.ok shared, p)
    else
      match p.advance bytes with
      | (.error e, q) => (.error e, q)
      | (.ok (), q) => (.ok shared, q)

/-- `push_checkpoint`. -/
def pushCheckpoint (p : Parser) : Except Errc Unit × Parser :=
  if p.checkpoints.length = maxParserCheckpoints then (.error .resourceExhausted, p)
  else (.ok (), { p with checkpoints := p.position :: p.checkpoints })

/-- `rollback`. -/
def rollback (p : Parser) : Except Errc Unit × Parser :=
  match p.checkpoints with
  | [] => (.error .invalidArgument, p)
  | checkpoint :: checkpoints => (.ok (), refreshCache { p with position := checkpoint, checkpoints })

/-- `commit`. -/
def commit (p : Parser) : Except Errc Unit × Parser :=
  match p.checkpoints with
  | [] => (.error .invalidArgument, p)
  | _ :: checkpoints => (.ok (), { p with checkpoints })

end Parser

/-! ## Programs that use parsers -/

/-- What a parser is asked. -/
inductive Request
  | skip (bytes : Nat)
  | peekTo (size : Nat)
  | readTo (size : Nat)
  | peekBuffer (bytes : Nat)
  | readBuffer (bytes : Nat)
  | pushCheckpoint
  | rollback
  | commit
  deriving DecidableEq

/-- What it gives back: nothing, bytes it copied, or a buffer that shares some. -/
inductive Answer (β : Type)
  | done
  | copied (bytes : List UInt8)
  | shared (content : β)
  deriving DecidableEq

/-- The same answer about other contents. -/
def Answer.map {β γ : Type} (f : β → γ) : Answer β → Answer γ
  | done => .done
  | copied bytes => .copied bytes
  | shared content => .shared (f content)

/-- An operation's result as an answer. -/
def answerWith {α β P : Type} (answer : α → β) (result : Except Errc α × P) : Except Errc β × P :=
  (result.1.map answer, result.2)

/-- One request. -/
def Parser.ask (p : Parser) : Request → Except Errc (Answer (Buffer (List UInt8))) × Parser
  | .skip bytes => answerWith (fun _ => .done) (p.skip bytes)
  | .peekTo size => answerWith .copied (p.peekTo size, p)
  | .readTo size => answerWith .copied (p.readTo size)
  | .peekBuffer bytes => answerWith .shared (p.peekBuffer bytes, p)
  | .readBuffer bytes => answerWith .shared (p.readBuffer bytes)
  | .pushCheckpoint => answerWith (fun _ => .done) p.pushCheckpoint
  | .rollback => answerWith (fun _ => .done) p.rollback
  | .commit => answerWith (fun _ => .done) p.commit

/-- A buffer that was published. -/
abbrev Published : Type := { buffer : Buffer (List UInt8) // buffer.Sound }

/-- Parsers in the slots of a program. A move takes the buffer, the cursor, the cache and the checkpoints
    with it and leaves the default parser, over an empty buffer. -/
def parsers : Slots.Machine Parser Published Request (Except Errc (Answer (Buffer (List UInt8)))) where
  blank := {}
  make buffer := Parser.make buffer.val
  ask := Parser.ask

end KwaqueStorage.Bytes
