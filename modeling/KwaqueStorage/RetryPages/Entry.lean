import KwaqueStorage.Extent.Format
import KwaqueStorage.Lib.Checks

/-!
# Completed-retry entries

A sealed segment keeps, of each producer stream, the results of its last batches. One entry is 160
octets at fixed offsets: the identity of the batch, the digest of what was submitted, the binding of
its stream, the records it was given and the generation that acknowledged it. Integers are stored low
octet first; identities are opaque octets, and their order is that of the octets.
-/

namespace KwaqueStorage.RetryPages

open Extent (u64Max SegmentContext)
open Lib

/-! ## Fields at fixed offsets -/

instance word_neZero : NeZero (2 ^ 64) := inferInstance

instance digest_neZero : NeZero (2 ^ 128) := inferInstance

/-- The value of octets, the low one first. -/
def littleEndian : List UInt8 → Nat
  | [] => 0
  | octet :: rest => octet.toNat + 256 * littleEndian rest

/-- The value of octets, the high one first. -/
def bigEndian (octets : List UInt8) : Nat := littleEndian octets.reverse

theorem littleEndian_lt (octets : List UInt8) : littleEndian octets < 256 ^ octets.length := by
  induction octets with
  | nil => exact Nat.one_pos
  | cons octet rest ih =>
    have hoctet : octet.toNat < 256 := octet.toNat_lt
    rw [littleEndian, List.length_cons, Nat.pow_succ]
    omega

/-- A field of so many octets at an offset. -/
def field (raw : List UInt8) (offset width : Nat) : List UInt8 := (raw.drop offset).take width

/-- `load`. -/
def load (raw : List UInt8) (offset width : Nat) : Nat := littleEndian (field raw offset width)

/-- `load` of a 64-bit integer. -/
def loadWord (raw : List UInt8) (offset : Nat) : Fin (2 ^ 64) :=
  ⟨load raw offset 8, by
    refine (littleEndian_lt _).trans_le ?_
    have hlen : (field raw offset 8).length ≤ 8 := List.length_take_le _ _
    calc 256 ^ (field raw offset 8).length
        ≤ 256 ^ 8 := Nat.pow_le_pow_right (by decide) hlen
      _ = 2 ^ 64 := by decide⟩

/-! ## Identities -/

/-- `batch_id`. -/
structure BatchId where
  producer : Nat
  epoch : Nat
  stream : Nat
  sequence : Fin (2 ^ 64)
  producer_ne : producer ≠ 0
  epoch_ne : epoch ≠ 0
  stream_ne : stream ≠ 0
  deriving DecidableEq

/-- What the order of batch identities goes by. -/
def BatchId.rank (id : BatchId) : Nat ×ₗ Nat ×ₗ Nat ×ₗ Fin (2 ^ 64) :=
  toLex (id.producer, toLex (id.epoch, toLex (id.stream, id.sequence)))

/-- The order of `batch_id::canonical_less`: the producer's octets, then the epoch, the stream and the
    sequence. -/
instance : LinearOrder BatchId :=
  LinearOrder.lift' BatchId.rank (by
    rintro ⟨p, e, s, q, _, _, _⟩ ⟨p', e', s', q', _, _, _⟩ h
    simpa [BatchId.rank] using h)

theorem BatchId.le_iff {a b : BatchId} : a ≤ b
    ↔ a.producer < b.producer ∨ a.producer = b.producer
      ∧ (a.epoch < b.epoch ∨ a.epoch = b.epoch
        ∧ (a.stream < b.stream ∨ a.stream = b.stream ∧ a.sequence ≤ b.sequence)) := by
  change a.rank ≤ b.rank ↔ _
  unfold BatchId.rank
  rw [Prod.Lex.toLex_le_toLex, Prod.Lex.toLex_le_toLex, Prod.Lex.toLex_le_toLex]

/-- `batch_id::make`. -/
def BatchId.make (producer epoch stream : Nat) (sequence : Fin (2 ^ 64)) : Except Errc BatchId :=
  if h : producer ≠ 0 ∧ epoch ≠ 0 ∧ stream ≠ 0 then
    .ok ⟨producer, epoch, stream, sequence, h.1, h.2.1, h.2.2⟩
  else .error .invalidArgument

/-- `retry_prefix`: one producer stream of one epoch. -/
structure RetryPrefix where
  producer : Nat
  epoch : Nat
  stream : Nat
  deriving DecidableEq

/-- `retry_prefix::of`. -/
def RetryPrefix.of (id : BatchId) : RetryPrefix := ⟨id.producer, id.epoch, id.stream⟩

/-- **Two batches of one stream** are in the order of their sequences. -/
theorem RetryPrefix.le_iff {a b : BatchId} (h : RetryPrefix.of a = RetryPrefix.of b) :
    a ≤ b ↔ a.sequence ≤ b.sequence := by
  obtain ⟨hproducer, hepoch, hstream⟩ := RetryPrefix.mk.inj h
  rw [BatchId.le_iff, hproducer, hepoch, hstream]
  simp only [lt_irrefl, true_and, false_or]

/-- **The batches of a stream lie together**: what is between two of them is of the stream. -/
theorem RetryPrefix.between {a b c : BatchId} (hab : a ≤ b) (hbc : b ≤ c)
    (h : RetryPrefix.of a = RetryPrefix.of c) : RetryPrefix.of b = RetryPrefix.of c := by
  obtain ⟨hproducer, hepoch, hstream⟩ := RetryPrefix.mk.inj h
  rw [BatchId.le_iff] at hab hbc
  unfold RetryPrefix.of
  rw [RetryPrefix.mk.injEq]
  omega

/-- `producer_stream_binding`. -/
structure StreamBinding where
  topic : Nat
  range : Nat
  routingEpoch : Nat
  segment : Nat
  generation : Nat
  deriving DecidableEq

/-- `codec::absolute_max_original_records`. -/
def absoluteMaxOriginalRecords : Nat := 4096

/-- `completed_retry`, with what its `make` checks. -/
structure CompletedRetry where
  id : BatchId
  submittedDigest : Nat
  originalBinding : StreamBinding
  returnedSpan : Span
  ackGeneration : Nat
  returned : returnedSpan.begin_ < returnedSpan.end_
  acked : ackGeneration = originalBinding.generation
  bounded : returnedSpan.count ≤ absoluteMaxOriginalRecords
  deriving DecidableEq

/-- `completed_retry::make`. -/
def CompletedRetry.make (id : BatchId) (submittedDigest : Nat) (originalBinding : StreamBinding)
    (returnedSpan : Span) (ackGeneration : Nat) : Except Errc CompletedRetry :=
  if h : returnedSpan.begin_ < returnedSpan.end_ ∧ ackGeneration = originalBinding.generation then
    if hcount : returnedSpan.count ≤ absoluteMaxOriginalRecords then
      .ok ⟨id, submittedDigest, originalBinding, returnedSpan, ackGeneration, h.1, h.2, hcount⟩
    else .error .resourceExhausted
  else .error .invalidArgument

/-! ## Reading an entry -/

/-- `page_wire`: what a value's own constructor refuses is malformed, unless it is too much. -/
def pageWire {α : Type} : Except Errc α → Except Errc α
  | .ok value => .ok value
  | .error .resourceExhausted => .error .resourceExhausted
  | .error _ => .error .malformedData

theorem pageWire_eq_ok {α : Type} {x : Except Errc α} {a : α} : pageWire x = .ok a ↔ x = .ok a := by
  cases x with
  | ok value => exact Iff.rfl
  | error code =>
    refine iff_of_false ?_ nofun
    cases code <;> exact nofun

/-- `object_id::make` and `positive_counter::make`: neither is zero. -/
def nonzero (value : Nat) : Except Errc Nat :=
  if value = 0 then .error .invalidArgument else .ok value

theorem nonzero_eq_ok {value n : Nat} : nonzero value = .ok n ↔ value ≠ 0 ∧ n = value := by
  unfold nonzero
  by_cases h : value = 0
  · rw [if_pos h]
    exact iff_of_false nofun fun hne => hne.1 h
  · rw [if_neg h]
    constructor
    · intro heq
      cases heq
      exact ⟨h, rfl⟩
    · rintro ⟨_, rfl⟩
      rfl

/-- `read_id`. -/
def readId (raw : List UInt8) (offset : Nat) : Except Errc Nat :=
  pageWire (nonzero (bigEndian (field raw offset 16)))

/-- A positive counter at an offset. -/
def readCounter (raw : List UInt8) (offset : Nat) : Except Errc Nat :=
  pageWire (nonzero (load raw offset 8))

/-- `read_digest`: sixteen octets, and as many reserved ones that are zero. -/
def readDigest (raw : List UInt8) (offset : Nat) : Option Nat :=
  if (field raw (offset + 16) 16).all (· = 0) then some (bigEndian (field raw offset 16)) else none

/-- `completed_retry_wire_bytes`. -/
def completedRetryWireBytes : Nat := 160

/-- `read_retry_entry`. -/
def readRetryEntry (raw : List UInt8) (expected : SegmentContext) (previous : Option BatchId) :
    Except Errc CompletedRetry := do
  let producer ← readId raw 0
  let epoch ← readCounter raw 16
  let stream ← readCounter raw 24
  let id ← BatchId.make producer epoch stream (loadWord raw 32)
  -- the key is refused before its value is decoded
  require (∀ last ∈ previous, last < id) .malformedData
  let topic ← readId raw 72
  let range ← readId raw 88
  let routing ← readCounter raw 104
  let segment ← readId raw 112
  let generation ← readCounter raw 128
  let ack ← readCounter raw 152
  let logical : Span := ⟨load raw 136 8, load raw 144 8⟩
  require (logical.begin_ ≤ logical.end_) .malformedData
  require (topic = expected.topic ∧ range = expected.range) .wrongContext
  match readDigest raw 40 with
  | none => .error .malformedData
  | some digest =>
    pageWire (CompletedRetry.make id digest ⟨topic, range, routing, segment, generation⟩ logical ack)

/-! ## What an accepted entry is -/

/-- **The entry that 160 octets hold**, stated over its fields: every identity and counter is there,
    the reserved octets are zero, and topic and range are those of the segment. -/
structure EntryHolds (raw : List UInt8) (expected : SegmentContext) (entry : CompletedRetry) :
    Prop where
  producer : entry.id.producer = bigEndian (field raw 0 16)
  epoch : entry.id.epoch = load raw 16 8
  stream : entry.id.stream = load raw 24 8
  sequence : entry.id.sequence = loadWord raw 32
  digest : entry.submittedDigest = bigEndian (field raw 40 16)
  reserved : ∀ octet ∈ field raw 56 16, octet = 0
  topic : entry.originalBinding.topic = bigEndian (field raw 72 16)
  range : entry.originalBinding.range = bigEndian (field raw 88 16)
  routingEpoch : entry.originalBinding.routingEpoch = load raw 104 8
  segment : entry.originalBinding.segment = bigEndian (field raw 112 16)
  generation : entry.originalBinding.generation = load raw 128 8
  returned : entry.returnedSpan = ⟨load raw 136 8, load raw 144 8⟩
  ack : entry.ackGeneration = load raw 152 8
  topic_ne : entry.originalBinding.topic ≠ 0
  range_ne : entry.originalBinding.range ≠ 0
  routing_ne : entry.originalBinding.routingEpoch ≠ 0
  segment_ne : entry.originalBinding.segment ≠ 0
  generation_ne : entry.originalBinding.generation ≠ 0
  own_topic : entry.originalBinding.topic = expected.topic
  own_range : entry.originalBinding.range = expected.range

section

variable {raw : List UInt8} {expected : SegmentContext} {previous : Option BatchId}
  {entry : CompletedRetry}

theorem readId_eq_ok {offset n : Nat} : readId raw offset = .ok n
    ↔ bigEndian (field raw offset 16) ≠ 0 ∧ n = bigEndian (field raw offset 16) := by
  unfold readId
  rw [pageWire_eq_ok, nonzero_eq_ok]

theorem readCounter_eq_ok {offset n : Nat} :
    readCounter raw offset = .ok n ↔ load raw offset 8 ≠ 0 ∧ n = load raw offset 8 := by
  unfold readCounter
  rw [pageWire_eq_ok, nonzero_eq_ok]

theorem BatchId.make_eq_ok {producer epoch stream : Nat} {sequence : Fin (2 ^ 64)} {id : BatchId} :
    BatchId.make producer epoch stream sequence = .ok id
      ↔ id.producer = producer ∧ id.epoch = epoch ∧ id.stream = stream ∧ id.sequence = sequence := by
  unfold BatchId.make
  split
  next h =>
    constructor
    · intro heq
      cases heq
      exact ⟨rfl, rfl, rfl, rfl⟩
    · rintro ⟨rfl, rfl, rfl, rfl⟩
      rfl
  next h =>
    refine iff_of_false nofun ?_
    rintro ⟨rfl, rfl, rfl, rfl⟩
    exact h ⟨id.producer_ne, id.epoch_ne, id.stream_ne⟩

theorem CompletedRetry.make_eq_ok {id : BatchId} {digest : Nat} {binding : StreamBinding}
    {span : Span} {ack : Nat} :
    CompletedRetry.make id digest binding span ack = .ok entry
      ↔ entry.id = id ∧ entry.submittedDigest = digest ∧ entry.originalBinding = binding
        ∧ entry.returnedSpan = span ∧ entry.ackGeneration = ack := by
  unfold CompletedRetry.make
  by_cases h : span.begin_ < span.end_ ∧ ack = binding.generation
  · by_cases hcount : span.count ≤ absoluteMaxOriginalRecords
    · rw [dif_pos h, dif_pos hcount]
      constructor
      · intro heq
        cases heq
        exact ⟨rfl, rfl, rfl, rfl, rfl⟩
      · rintro ⟨rfl, rfl, rfl, rfl, rfl⟩
        rfl
    · rw [dif_pos h, dif_neg hcount]
      refine iff_of_false nofun ?_
      rintro ⟨rfl, rfl, rfl, rfl, rfl⟩
      exact hcount entry.bounded
  · rw [dif_neg h]
    refine iff_of_false nofun ?_
    rintro ⟨rfl, rfl, rfl, rfl, rfl⟩
    exact h ⟨entry.returned, entry.acked⟩

theorem readDigest_eq_some {offset n : Nat} : readDigest raw offset = some n
    ↔ (∀ octet ∈ field raw (offset + 16) 16, octet = 0) ∧ n = bigEndian (field raw offset 16) := by
  unfold readDigest
  split
  next h =>
    rw [List.all_eq_true] at h
    constructor
    · intro heq
      cases heq
      exact ⟨fun octet hmem => by simpa using h octet hmem, rfl⟩
    · rintro ⟨_, rfl⟩
      rfl
  next h =>
    refine iff_of_false nofun ?_
    rintro ⟨hall, _⟩
    exact h (List.all_eq_true.mpr fun octet hmem => by simpa using hall octet hmem)

/-- **Reading an entry** answers the one its octets hold, and only past the key before it. -/
theorem readRetryEntry_eq_ok : readRetryEntry raw expected previous = .ok entry
    ↔ EntryHolds raw expected entry ∧ ∀ last ∈ previous, last < entry.id := by
  unfold readRetryEntry
  simp only [bind_eq_ok, readId_eq_ok, readCounter_eq_ok, BatchId.make_eq_ok, require_eq_ok,
    exists_const]
  constructor
  · rintro ⟨_, ⟨_, rfl⟩, _, ⟨_, rfl⟩, _, ⟨_, rfl⟩, id, ⟨hp, he, hs, hq⟩, hlast, _, ⟨htopic, rfl⟩, _,
      ⟨hrange, rfl⟩, _, ⟨hrouting, rfl⟩, _, ⟨hsegment, rfl⟩, _, ⟨hgeneration, rfl⟩, _, ⟨_, rfl⟩, _,
      ⟨hown, hownr⟩, hmake⟩
    cases hdigest : readDigest raw 40 with
    | none =>
      rw [hdigest] at hmake
      cases hmake
    | some digest =>
      rw [hdigest] at hmake
      obtain ⟨rfl, rfl, hbinding, hspan, hack⟩ := CompletedRetry.make_eq_ok.mp (pageWire_eq_ok.mp hmake)
      obtain ⟨hreserved, hdig⟩ := readDigest_eq_some.mp hdigest
      refine ⟨⟨hp, he, hs, hq, hdig, hreserved, ?_, ?_, ?_, ?_, ?_, hspan, hack, ?_, ?_, ?_, ?_, ?_, ?_,
        ?_⟩, hlast⟩
      all_goals rw [hbinding]
      all_goals assumption
  · rintro ⟨h, hlast⟩
    refine ⟨_, ⟨h.producer ▸ entry.id.producer_ne, rfl⟩, _, ⟨h.epoch ▸ entry.id.epoch_ne, rfl⟩, _,
      ⟨h.stream ▸ entry.id.stream_ne, rfl⟩, entry.id, ⟨h.producer, h.epoch, h.stream, h.sequence⟩,
      hlast, _, ⟨h.topic ▸ h.topic_ne, rfl⟩, _, ⟨h.range ▸ h.range_ne, rfl⟩, _,
      ⟨h.routingEpoch ▸ h.routing_ne, rfl⟩, _, ⟨h.segment ▸ h.segment_ne, rfl⟩, _,
      ⟨h.generation ▸ h.generation_ne, rfl⟩, _, ⟨?_, rfl⟩, ?_, ?_, ?_⟩
    · rw [← h.ack, entry.acked]
      exact h.generation_ne
    · have hspan := entry.returned
      rw [h.returned] at hspan
      exact le_of_lt hspan
    · exact ⟨h.topic ▸ h.own_topic, h.range ▸ h.own_range⟩
    · rw [readDigest_eq_some.mpr ⟨h.reserved, rfl⟩]
      refine pageWire_eq_ok.mpr (CompletedRetry.make_eq_ok.mpr ⟨rfl, h.digest, ?_, h.returned, h.ack⟩)
      rw [← h.topic, ← h.range, ← h.routingEpoch, ← h.segment, ← h.generation]

end

end KwaqueStorage.RetryPages
