import KwaqueStorage.Codec.Envelope
import KwaqueStorage.Scan.Reader

/-!
# Reading a file window by window

`scan_reader` as it is: one pass over a part of a file, in windows that end at multiples of the window size
and are requested ahead of the one being examined, in file order. What was read and lies at or behind the
cursor is kept, and an object is examined there, never by a read of its own; so an object may lie in many
windows, and a skip may pass over windows that were asked for already.

What lies outside the reader, and may refuse it at any call, is an `Env`: a read fails or is short,
memory for joined windows or a share cannot be had, the budget has no room for an object larger than a
window, the work is aborted. The ring of reads in flight is the queue it implements.
-/

namespace KwaqueStorage.Scan.Window

open Lib Layout Codec
open Extent (u64Max)
open RetryPages (load)

/-- `runtime::maximum_file_io_bytes`. -/
def maximumFileIoBytes : Nat := 67108864

/-- `maximum_scan_read_ahead`. -/
def maximumScanReadAhead : Nat := 4

/-- `scan_reader_limits`, as `validate` accepts them. -/
structure ReaderLimits where
  windowBytes : Nat := 131072
  readAhead : Nat := 3
  maximumObjectBytes : Nat := maximumFileIoBytes
  executionBytes : Nat := 65536
  window_pos : 0 < windowBytes := by decide
  window_most : windowBytes ≤ maximumFileIoBytes := by decide
  ahead_most : readAhead ≤ maximumScanReadAhead := by decide
  object_least : Scan.envelopePrefixBytes ≤ maximumObjectBytes := by decide

instance : DecidableEq ReaderLimits := fun a b =>
  decidable_of_iff (a.windowBytes = b.windowBytes ∧ a.readAhead = b.readAhead
    ∧ a.maximumObjectBytes = b.maximumObjectBytes ∧ a.executionBytes = b.executionBytes)
    (by cases a; cases b; simp)

/-! ## What is found -/

/-- `codec::error`. -/
structure Finding where
  code : Errc
  family : Nat := 0
  field : Nat := 0
  byteOffset : Nat := 0
  deriving DecidableEq

/-- `envelope_field`, the fields an envelope's front is refused for. -/
inductive EnvelopeField
  | magic
  | headerBytes
  | bodyBytes
  | headerCrc32c
  | encodedBytes
  deriving DecidableEq

/-- The number of a field. -/
def EnvelopeField.code : EnvelopeField → Nat
  | magic => 1
  | headerBytes => 5
  | bodyBytes => 6
  | headerCrc32c => 9
  | encodedBytes => 10

/-- `prefix_error`. -/
def frontError (code : Errc) (field : EnvelopeField) (offset : Nat) : Finding := ⟨code, 0, field.code, offset⟩

/-- `peek_envelope_prefix` of exactly a prefix's octets that lie at an origin, under one bound for the
    body and for the object. -/
def peekFront (policy : Limits) (maximum origin : Nat) (raw : List UInt8) :
    Except Finding EnvelopePrefix := do
  let config := policy.config
  require (128 ≤ config.maxWorkBytes ∧ 64 ≤ config.maxWorkItems)
    (frontError .resourceExhausted .magic origin)
  require (Layout.envelopePrefixBytes ≤ raw.length)
    (frontError .malformedData .magic (origin + raw.length))
  require (load raw 0 4 = envelopeMagic) (frontError .malformedData .magic origin)
  let header := load raw 10 2
  let body := load raw 12 4
  require (Layout.envelopePrefixBytes ≤ header) (frontError .malformedData .headerBytes (origin + 10))
  require (header ≤ config.maxHeaderBytes) (frontError .resourceExhausted .headerBytes (origin + 10))
  require (body ≤ min config.maxEncodedBodyBytes maximum)
    (frontError .resourceExhausted .bodyBytes (origin + 12))
  require (origin + (header + body) ≤ u64Max) (frontError .malformedData .encodedBytes (origin + 12))
  require (header + body ≤ min config.maxRetainedBytes maximum)
    (frontError .resourceExhausted .encodedBytes (origin + 12))
  pure { family := load raw 4 2, writerVersion := load raw 6 2,
         minimumReaderVersion := load raw 8 2, headerBytes := header,
         bodyBytes := body, requiredFeatures := load raw 16 8,
         bodyCrc32c := load raw 24 4, headerCrc32c := load raw 28 4 }

/-- `body_extent_field`. -/
def bodyExtentField (why : Finding) : Bool :=
  why.field = EnvelopeField.bodyBytes.code || why.field = EnvelopeField.encodedBytes.code

/-- `unverified_envelope_prefix::encoded_bytes`. -/
def encodedBytes (found : EnvelopePrefix) : Nat := found.headerBytes + found.bodyBytes

/-- `scan_slot_kind`. -/
inductive SlotKind
  | object
  | end_
  | zero
  | torn
  | corrupt
  | malformed
  deriving DecidableEq

/-- `scan_slot`. -/
structure ScanSlot where
  kind : SlotKind
  position : Nat
  /-- An object's header-verified fixed front. -/
  found : Option EnvelopePrefix := none
  /-- The finding behind a corrupt or malformed slot. -/
  cause : Option Finding := none
  deriving DecidableEq

/-! ## The reader -/

/-- `pending_read`. -/
structure PendingRead where
  at_ : Nat
  length : Nat
  deriving DecidableEq

/-- `scan_reader`, less its reservations. -/
structure Reader where
  limits : ReaderLimits
  cursor : Nat
  end_ : Nat
  buffered : List UInt8 := []
  bufferedBegin : Nat
  bufferedEnd : Nat
  nextRead : Nat
  reads : List PendingRead := []
  current : Option ScanSlot := none
  closed : Bool := false
  broken : Bool := false
  deriving DecidableEq

/-- What a read that did not go well came to. -/
inductive ReadFault
  | failed (code : Errc)
  | short (length : Nat)
  deriving DecidableEq

/-- What lies outside the reader, during one call of it. -/
structure Env where
  /-- `path_checkpoint`, before a slot is classified. -/
  checkpoint : Option Errc := none
  /-- The read of a window. -/
  read : Nat → Nat → Option ReadFault := fun _ _ => none
  /-- Whether a window that begins at a position could not be joined to those before it. -/
  unjoined : Nat → Bool := fun _ => false
  /-- `poll`, after the window that ends at a position. -/
  poll : Nat → Option Errc := fun _ => none
  /-- Whether a share of so many bytes at a position could not be made. -/
  unshared : Nat → Nat → Bool := fun _ _ => false
  /-- Why the checksum of a header at a position could not be verified. -/
  unverified : Nat → Option Errc := fun _ => none
  /-- What the budget refuses: an object of so many bytes. -/
  refused : Nat → Option Errc := fun _ => none

/-- Nothing outside refuses. -/
def Env.fine : Env := {}

namespace Reader

/-- `scan_reader::make`, once its limits are valid. The budget is asked for the windows in flight and the
    buffered ones. -/
def make (limits : ReaderLimits) (begin_ end_ : Nat) (env : Env) : Except Errc Reader := do
  require (begin_ ≤ end_) .invalidArgument
  let bytes := limits.windowBytes * (limits.readAhead + 3) + limits.executionBytes
  require (bytes ≤ u64Max) .outOfRange
  match env.refused bytes with
  | some code => .error code
  | none => .ok { limits, cursor := begin_, end_, bufferedBegin := begin_, bufferedEnd := begin_,
                  nextRead := begin_ }

/-- One window more, up to the next multiple of the window size. -/
def request (r : Reader) : Reader :=
  let window := r.limits.windowBytes
  let length := min (window - r.nextRead % window) (r.end_ - r.nextRead)
  { r with reads := r.reads ++ [⟨r.nextRead, length⟩], nextRead := r.nextRead + length }

/-- The loop of `issue`: a turn for each read that is missing. -/
def issueLoop : Nat → Reader → Reader
  | 0, r => r
  | left + 1, r =>
    if r.reads.length < r.limits.readAhead + 1 ∧ r.nextRead < r.end_ then issueLoop left r.request else r

/-- `scan_reader::issue`: keeps the read-ahead full. -/
def issue (r : Reader) : Reader := issueLoop (r.limits.readAhead + 1) r

/-- `trim_front` of the buffered bytes to a place in them. -/
def trimTo (r : Reader) (through : Nat) : Except Errc Reader :=
  if r.buffered.length < through - r.bufferedBegin then .error .invariantViolation
  else .ok { r with buffered := r.buffered.drop (through - r.bufferedBegin), bufferedBegin := through }

/-- Bytes before the cursor are never examined again. -/
def forget (r : Reader) : Except Errc Reader :=
  if r.bufferedBegin < r.cursor then r.trimTo (min r.cursor r.bufferedEnd) else .ok r

/-- What a window's bytes become part of. Nothing when they cannot be joined. -/
def join (r : Reader) (env : Env) (pending : PendingRead) (data : List UInt8) : Option Reader :=
  if r.buffered = [] then some { r with buffered := data, bufferedBegin := pending.at_ }
  else if env.unjoined pending.at_ then none
  else some { r with buffered := r.buffered ++ data }

/-- What becomes of the bytes a read came to: they are joined to what is buffered, and the read-ahead is
    kept full. -/
def arrive (env : Env) (pending : PendingRead) (data : List UInt8) (r : Reader) :
    Except Errc Unit × Reader :=
  if data.length ≠ pending.length then (.error .wrongContext, r)
  else
    match r.join env pending data with
    | none => (.error .resourceExhausted, { r with buffered := [] })
    | some r =>
      let r := { r with broken := false, bufferedEnd := pending.at_ + pending.length }
      match r.forget with
      | .error code => (.error code, r)
      | .ok r =>
        let r := r.issue
        match env.poll r.bufferedEnd with
        | some code => (.error code, r)
        | none => (.ok (), r)

/-- One turn of `fill`: the oldest read in flight. -/
def fillTurn (file : List UInt8) (env : Env) (r : Reader) : Except Errc Unit × Reader :=
  let r := r.issue
  match r.reads with
  | [] => (.error .invariantViolation, r)
  | pending :: rest =>
    -- any failure leaves a hole in the sequence of windows, so the reader stays failed
    let r := { r with reads := rest, broken := true }
    match env.read pending.at_ pending.length with
    | some (.failed code) => (.error code, r)
    | some (.short length) => r.arrive env pending (bytesAt file pending.at_ (min length pending.length))
    | none => r.arrive env pending (bytesAt file pending.at_ pending.length)

/-- The loop of `fill`. Each turn brings a byte at least. -/
def fillLoop (file : List UInt8) (env : Env) (through : Nat) : Nat → Reader → Except Errc Unit × Reader
  | 0, r => (.ok (), r)
  | left + 1, r =>
    if r.bufferedEnd < through then
      match r.fillTurn file env with
      | (.error code, r) => (.error code, r)
      | (.ok _, r) => fillLoop file env through left r
    else (.ok (), r)

/-- `scan_reader::fill`. -/
def fill (file : List UInt8) (env : Env) (through : Nat) (r : Reader) : Except Errc Unit × Reader :=
  fillLoop file env through (through - r.bufferedEnd) r

/-- `scan_reader::share`. -/
def share (env : Env) (at_ length : Nat) (r : Reader) : Except Errc (List UInt8) :=
  if at_ < r.bufferedBegin ∨ r.bufferedEnd < at_ + length then .error .invariantViolation
  else if env.unshared at_ length then .error .resourceExhausted
  else .ok ((r.buffered.drop (at_ - r.bufferedBegin)).take length)

end Reader

/-! ## Classifying -/

/-- The codecs and the bounds a reader examines a file under. -/
structure Rules where
  digests : Digests
  policy : Limits
  maximumObjectBytes : Nat

/-- What the front of a slot alone decides: the slot, or how long the header is and what the front is, or
    why a body's extent was refused. -/
def judgeFront (rules : Rules) (at_ : Nat) (raw : List UInt8) :
    ScanSlot ⊕ (Nat × Except Finding EnvelopePrefix) :=
  if raw.all (· = 0) then .inl ⟨.zero, at_, none, none⟩
  else
    match peekFront rules.policy rules.maximumObjectBytes at_ raw with
    | .error why =>
      if bodyExtentField why = false then .inl ⟨.malformed, at_, none, some why⟩
      else .inr (Scan.headerBytes raw, .error why)
    | .ok found => .inr (Scan.headerBytes raw, .ok found)

/-- `verify_envelope_header_crc` of a header that is there: the finding of one that does not match. -/
def verifyHeader (rules : Rules) (at_ : Nat) (header : List UInt8) : Option Finding :=
  if verifyHeaderCrc rules.digests header = .ok () then none
  else some (frontError .corruptData .headerCrc32c (at_ + 28))

/-- What is made of a slot whose header's checksum holds: an object's front, or the end of it. -/
def judgeVerified (at_ remaining : Nat) : Except Finding EnvelopePrefix → Except Errc (ScanSlot ⊕ EnvelopePrefix)
  | .error why =>
    -- a size only the limits refuse is a resource limit, never damage
    if why.code = .resourceExhausted then .error .resourceExhausted
    else .ok (.inl ⟨.malformed, at_, none, some why⟩)
  | .ok found =>
    if encodedBytes found > remaining then .ok (.inl ⟨.torn, at_, none, none⟩) else .ok (.inr found)

namespace Reader

/-- The rules of a reader's own limits. -/
def rules (digests : Digests) (policy : Limits) (r : Reader) : Rules :=
  ⟨digests, policy, r.limits.maximumObjectBytes⟩

/-- An object that is all there: larger ones are admitted first, and it is filled to its end. -/
def takeObject (file : List UInt8) (env : Env) (found : EnvelopePrefix) (r : Reader) :
    Except Errc ScanSlot × Reader :=
  let admitted := if encodedBytes found > r.limits.windowBytes then env.refused (encodedBytes found) else none
  match admitted with
  | some code => (.error code, r)
  | none =>
    match r.fill file env (r.cursor + encodedBytes found) with
    | (.error code, r) => (.error code, r)
    | (.ok _, r) => (.ok ⟨.object, r.cursor, some found, none⟩, r)

/-- A header that is all there: it is filled and verified, and only then is the object looked at. -/
def takeHeader (rules : Rules) (file : List UInt8) (env : Env) (header : Nat)
    (front : Except Finding EnvelopePrefix) (r : Reader) : Except Errc ScanSlot × Reader :=
  match r.fill file env (r.cursor + header) with
  | (.error code, r) => (.error code, r)
  | (.ok _, r) =>
    match r.share env r.cursor header with
    | .error code => (.error code, r)
    | .ok octets =>
      match env.unverified r.cursor with
      | some code => (.error code, r)
      | none =>
        match verifyHeader rules r.cursor octets with
        | some why => (.ok ⟨.corrupt, r.cursor, none, some why⟩, r)
        | none =>
          match judgeVerified r.cursor (r.end_ - r.cursor) front with
          | .error code => (.error code, r)
          | .ok (.inl slot) => (.ok slot, r)
          | .ok (.inr found) => r.takeObject file env found

/-- `scan_reader::classify`. -/
def classify (rules : Rules) (file : List UInt8) (env : Env) (r : Reader) :
    Except Errc ScanSlot × Reader :=
  let remaining := r.end_ - r.cursor
  if remaining = 0 then (.ok ⟨.end_, r.cursor, none, none⟩, r)
  else if remaining < Scan.envelopePrefixBytes then (.ok ⟨.torn, r.cursor, none, none⟩, r)
  else
    match r.fill file env (r.cursor + Scan.envelopePrefixBytes) with
    | (.error code, r) => (.error code, r)
    | (.ok _, r) =>
      match r.share env r.cursor Scan.envelopePrefixBytes with
      | .error code => (.error code, r)
      | .ok raw =>
        match judgeFront rules r.cursor raw with
        | .inl slot => (.ok slot, r)
        | .inr (header, front) =>
          if header > remaining then (.ok ⟨.torn, r.cursor, none, none⟩, r)
          else r.takeHeader rules file env header front

/-- `scan_reader::next`. -/
def next (rules : Rules) (file : List UInt8) (env : Env) (r : Reader) : Except Errc ScanSlot × Reader :=
  if r.closed then (.error .closed, r)
  else if r.broken then (.error .ioFailure, r)
  else
    match r.current with
    | some slot => (.ok slot, r)
    | none =>
      match env.checkpoint with
      | some code => (.error code, r)
      | none =>
        match r.classify rules file env with
        | (.error code, r) => (.error code, r)
        | (.ok slot, r) => (.ok slot, { r with current := some slot })

/-- The object a reader stands at, once it was classified. -/
def standing (r : Reader) : Option EnvelopePrefix :=
  if r.closed then none
  else r.current.bind fun slot => if slot.kind = .object then slot.found else none

/-- `scan_reader::object`. -/
def object (env : Env) (r : Reader) : Except Errc (List UInt8) :=
  match r.standing with
  | none => .error .invalidArgument
  | some found => r.share env r.cursor (encodedBytes found)

/-- `scan_reader::advance`. -/
def advance (r : Reader) : Except Errc Unit × Reader :=
  match r.standing with
  | none => (.error .invalidArgument, r)
  | some found =>
    let r := { r with cursor := r.cursor + encodedBytes found }
    match r.trimTo r.cursor with
    | .error code => (.error code, r)
    | .ok r => (.ok (), { r with current := none })

/-- `scan_reader::skip_to`. -/
def skipTo (at_ : Nat) (r : Reader) : Except Errc Unit × Reader :=
  if r.closed ∨ at_ < r.cursor ∨ r.end_ < at_ then (.error .invalidArgument, r)
  else
    let r := { r with current := none, cursor := at_ }
    match r.trimTo (min r.cursor r.bufferedEnd) with
    | .error code => (.error code, r)
    | .ok r => (.ok (), r)

/-- `scan_reader::close`: every read in flight is joined, whatever it comes to. -/
def close (r : Reader) : Reader :=
  { r with closed := true, current := none, reads := [], buffered := [] }

end Reader

/-! ## Calls -/

/-- A call of a reader. -/
inductive Call
  | next
  | object
  | advance
  | skipTo (at_ : Nat)
  | close
  deriving DecidableEq

/-- What a call answers. -/
inductive Answer
  | slot (slot : ScanSlot)
  | bytes (octets : List UInt8)
  | done
  | failed (code : Errc)
  deriving DecidableEq

/-- An answer of a call that moves or closes. -/
def Answer.ofUnit : Except Errc Unit → Answer
  | .ok _ => .done
  | .error code => .failed code

/-- An answer that classifies. -/
def Answer.ofSlot : Except Errc ScanSlot → Answer
  | .ok found => .slot found
  | .error code => .failed code

/-- An answer that shares. -/
def Answer.ofBytes : Except Errc (List UInt8) → Answer
  | .ok octets => .bytes octets
  | .error code => .failed code

/-- One call of a reader. -/
def Reader.call (digests : Digests) (policy : Limits) (file : List UInt8) (env : Env) (r : Reader) :
    Call → Answer × Reader
  | .next =>
    let out := r.next (r.rules digests policy) file env
    (.ofSlot out.1, out.2)
  | .object => (.ofBytes (r.object env), r)
  | .advance =>
    let out := r.advance
    (.ofUnit out.1, out.2)
  | .skipTo at_ =>
    let out := r.skipTo at_
    (.ofUnit out.1, out.2)
  | .close => (.done, r.close)

/-- The answers to a sequence of calls, one after another. -/
def Reader.calls (digests : Digests) (policy : Limits) (file : List UInt8) :
    Reader → List (Call × Env) → List Answer
  | _, [] => []
  | r, (call, env) :: rest =>
    let out := r.call digests policy file env call
    out.1 :: out.2.calls digests policy file rest

end KwaqueStorage.Scan.Window
