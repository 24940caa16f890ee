import KwaqueStorage.Records.Parser

/-!
# Numbers and lengths on the wire

Scalars are read whole or not at all, and an error names the field and the place of the byte that it is
about, in the coordinates of the outermost input. Each reader has one lemma: it reads a value exactly when
the bytes that remain begin with that value as it would be written.
-/

namespace KwaqueStorage.Records

open Extent (u64Max)
open Lib

/-- `record_field`. -/
inductive RecordField
  | bodyBytes
  | attributes
  | timestampDelta
  | logicalDelta
  | keyLength
  | key
  | valueLength
  | value
  | headerCount
  | headerNameLength
  | headerName
  | headerValueLength
  | headerValue
  deriving DecidableEq

/-- `field_context`. -/
structure FieldContext where
  origin : Nat
  field : RecordField
  deriving DecidableEq

/-- `codec::error`. -/
structure CodecError where
  code : Errc
  field : RecordField
  offset : Nat
  deriving DecidableEq

/-- `input_boundary`. -/
inductive InputBoundary
  | unfinished
  | complete
  deriving DecidableEq

/-- The same place, under another field. -/
def FieldContext.as (context : FieldContext) (field : RecordField) : FieldContext :=
  ⟨context.origin, field⟩

/-- An error of a context, at a place. -/
def FieldContext.error (context : FieldContext) (code : Errc) (offset : Nat) : CodecError :=
  ⟨code, context.field, offset⟩

variable {context : FieldContext} {boundary : InputBoundary} {p p' : Parser}

/-- `integer_read_start`. -/
def readStart (p : Parser) (context : FieldContext) : Except CodecError Nat := do
  require (context.origin + p.total ≤ u64Max) (context.error .invalidArgument context.origin)
  pure (context.origin + p.consumed)

/-- `integer_shortage`, of an input that ends too soon. -/
def shortage (p : Parser) (context : FieldContext) (boundary : InputBoundary) : CodecError :=
  context.error (if boundary = .complete then .malformedData else .truncatedData)
    (context.origin + p.total)

/-- `read_le` of one byte. -/
def readByte (p : Parser) (context : FieldContext) (boundary : InputBoundary) :
    Except CodecError (UInt8 × Parser) := do
  let _ ← readStart p context
  match p.peek 1 with
  | octet :: _ => pure (octet, p.advance 1)
  | [] => .error (shortage p context boundary)

theorem readByte_eq_ok {octet : UInt8} : readByte p context boundary = .ok (octet, p')
    ↔ context.origin + p.total ≤ u64Max ∧ p.Begins [octet] ∧ p' = p.advance 1 := by
  unfold readByte readStart Parser.Begins
  simp only [bind_eq_ok, require_eq_ok, exists_const, pure_eq_ok, Parser.peek_eq]
  cases hrest : p.rest with
  | nil =>
    refine iff_of_false ?_ ?_
    · rintro ⟨_, _, h⟩
      cases h
    · rintro ⟨_, h, _⟩
      cases List.prefix_nil.mp h
  | cons first more =>
    rw [List.take_succ_cons]
    constructor
    · rintro ⟨_, ⟨hfits, _⟩, h⟩
      cases h
      exact ⟨hfits, List.prefix_append [_] _, rfl⟩
    · rintro ⟨hfits, h, rfl⟩
      obtain rfl : octet = first := (List.cons_prefix_cons.mp h).1
      exact ⟨_, ⟨hfits, rfl⟩, rfl⟩

/-! ## Unsigned numbers -/

/-- The bytes of an unsigned number. -/
def spellVaruint (value : Nat) : List UInt8 := Base128.digits 10 value

theorem spellVaruint_length {value : Nat} : (spellVaruint value).length = unsignedSize value :=
  Base128.digits_length

theorem unsignedSize_pos {value : Nat} : 0 < unsignedSize value := Base128.width_pos (by decide)

/-- `probe_varuint_value`: a number of so many bits, and the bytes it takes. -/
def probeVaruint (bits : Nat) (p : Parser) (context : FieldContext) (boundary : InputBoundary) :
    Except CodecError (Nat × Nat) := do
  let start ← readStart p context
  match Base128.probe bits 0 0 (p.peek (min p.remaining ((bits + 6) / 7))) with
  | .ok probed => pure probed
  | .error (.malformed index) => .error (context.error .malformedData (start + index))
  | .error .shortage => .error (shortage p context boundary)

/-- `read_varuint_value`. -/
def readVaruint (bits : Nat) (p : Parser) (context : FieldContext) (boundary : InputBoundary) :
    Except CodecError (Nat × Parser) := do
  let (value, size) ← probeVaruint bits p context boundary
  pure (value, p.advance size)

/-- A width the wire has: 32 or 64 bits. -/
def WireBits (bits : Nat) : Prop := bits = 32 ∨ bits = 64

theorem probeVaruint_eq_ok {bits value size : Nat} (hbits : WireBits bits) :
    probeVaruint bits p context boundary = .ok (value, size)
      ↔ context.origin + p.total ≤ u64Max ∧ value < 2 ^ bits ∧ p.Begins (spellVaruint value)
        ∧ size = (spellVaruint value).length := by
  have hpeek : p.peek (min p.remaining ((bits + 6) / 7)) = p.rest.take ((bits + 6) / 7) := by
    rw [Parser.peek_eq, Parser.remaining_eq, Nat.min_comm, ← List.take_eq_take_min]
  have hprobe : Base128.probe bits 0 0 (p.rest.take ((bits + 6) / 7)) = .ok (value, size)
      ↔ value < 2 ^ bits ∧ p.Begins (spellVaruint value) ∧ size = (spellVaruint value).length := by
    constructor
    · intro h
      obtain ⟨hsize, hvalue, more, hmore⟩ := @Base128.probe_eq_ok bits 9 value size _ h
        (by rcases hbits with rfl | rfl <;> decide) (by rcases hbits with rfl | rfl <;> decide)
      have htaken : spellVaruint value <+: p.rest.take ((bits + 6) / 7) := ⟨more, hmore.symm⟩
      exact ⟨hvalue, htaken.trans (List.take_prefix _ _), hsize.trans spellVaruint_length.symm⟩
    · rintro ⟨hvalue, hbegins, rfl⟩
      -- no number of the width takes more bytes than the probe looks at
      have hwidth : (spellVaruint value).length ≤ (bits + 6) / 7 := by
        rw [spellVaruint_length]
        rcases hbits with rfl | rfl
        · exact @Base128.width_le_of_lt 10 4 value (by omega)
        · exact @Base128.width_le_of_lt 10 9 value (by omega)
      have htaken : spellVaruint value <+: p.rest.take ((bits + 6) / 7) :=
        List.prefix_take_iff.mpr ⟨hbegins, hwidth⟩
      obtain ⟨more, hmore⟩ := htaken
      rw [← hmore, spellVaruint_length]
      exact Base128.probe_digits (by rcases hbits with rfl | rfl <;> omega) hvalue
  unfold probeVaruint readStart
  simp only [bind_eq_ok, require_eq_ok, exists_const, pure_eq_ok, hpeek]
  constructor
  · rintro ⟨_, ⟨hfits, rfl⟩, h⟩
    refine ⟨hfits, hprobe.mp ?_⟩
    split at h
    next probed heq =>
      rw [heq, pure_eq_ok.mp h]
    next => cases h
    next => cases h
  · rintro ⟨hfits, h⟩
    refine ⟨_, ⟨hfits, rfl⟩, ?_⟩
    rw [hprobe.mpr h]
    rfl

/-- **A number is read** exactly when the bytes that remain begin with it. -/
theorem readVaruint_eq_ok {bits value : Nat} (hbits : WireBits bits) :
    readVaruint bits p context boundary = .ok (value, p')
      ↔ context.origin + p.total ≤ u64Max ∧ value < 2 ^ bits ∧ p.Begins (spellVaruint value)
        ∧ p' = p.advance (spellVaruint value).length := by
  unfold readVaruint
  simp only [bind_eq_ok, Prod.exists, pure_eq_ok, Prod.mk.injEq, probeVaruint_eq_ok hbits]
  constructor
  · rintro ⟨value, size, ⟨hfits, hvalue, hbegins, rfl⟩, rfl, rfl⟩
    exact ⟨hfits, hvalue, hbegins, rfl⟩
  · rintro ⟨hfits, hvalue, hbegins, rfl⟩
    exact ⟨value, _, ⟨hfits, hvalue, hbegins, rfl⟩, rfl, rfl⟩

/-! ## Signed numbers -/

/-- `decode_zigzag`. -/
def decodeZigzag (bits : Nat) : Int := if bits % 2 = 0 then bits / 2 else -(bits / 2) - 1

theorem decodeZigzag_encodeZigzag {value : Int} : decodeZigzag (encodeZigzag value) = value := by
  unfold decodeZigzag encodeZigzag
  split <;> split <;> omega

theorem encodeZigzag_decodeZigzag {bits : Nat} : encodeZigzag (decodeZigzag bits) = bits := by
  unfold decodeZigzag encodeZigzag
  split <;> split <;> omega

/-- The bytes of a signed number. -/
def spellVarint (value : Int) : List UInt8 := spellVaruint (encodeZigzag value)

/-- `read_varint`, of 64 bits. -/
def readVarint (p : Parser) (context : FieldContext) (boundary : InputBoundary) :
    Except CodecError (Int64 × Parser) := do
  let (bits, p) ← readVaruint 64 p context boundary
  pure (Int64.ofInt (decodeZigzag bits), p)

theorem readVarint_eq_ok {value : Int64} : readVarint p context boundary = .ok (value, p')
    ↔ context.origin + p.total ≤ u64Max ∧ p.Begins (spellVarint value.toInt)
      ∧ p' = p.advance (spellVarint value.toInt).length := by
  unfold readVarint spellVarint
  simp only [bind_eq_ok, Prod.exists, pure_eq_ok, Prod.mk.injEq, readVaruint_eq_ok (.inr rfl)]
  constructor
  · rintro ⟨bits, q, ⟨hfits, hbits, hbegins, rfl⟩, rfl, rfl⟩
    have hvalue : (Int64.ofInt (decodeZigzag bits)).toInt = decodeZigzag bits := by
      refine Int64.toInt_ofInt_of_le ?_ ?_ <;> unfold decodeZigzag <;> split <;> omega
    rw [hvalue, encodeZigzag_decodeZigzag]
    exact ⟨hfits, hbegins, rfl⟩
  · rintro ⟨hfits, hbegins, rfl⟩
    refine ⟨encodeZigzag value.toInt, _, ⟨hfits, ?_, hbegins, rfl⟩, ?_, rfl⟩
    · have hlow := value.le_toInt
      have hhigh := value.toInt_lt
      unfold encodeZigzag
      split <;> omega
    · rw [decodeZigzag_encodeZigzag, Int64.ofInt_toInt]

/-! ## Lengths of payloads that may be absent -/

/-- The bytes of the length of a payload: of one that is absent, minus one. -/
def spellLength (length : Option Nat) : List UInt8 :=
  spellVarint (length.elim (-1) fun n => (n : Int))

/-- `read_nullable_length`. It moves past the length alone, once the payload is known to be there. -/
def readNullableLength (most : Nat) (p : Parser) (context : FieldContext) (boundary : InputBoundary) :
    Except CodecError (Option Nat × Parser) := do
  let (bits, size) ← probeVaruint 32 p context boundary
  let start := context.origin + p.consumed
  let decoded := decodeZigzag bits
  require (-1 ≤ decoded) (context.error .malformedData start)
  if decoded = -1 then pure (none, p.advance size)
  else do
    require (decoded.toNat ≤ most) (context.error .resourceExhausted start)
    require (decoded.toNat ≤ p.remaining - size) (shortage p context boundary)
    pure (some decoded.toNat, p.advance size)

theorem readNullableLength_eq_ok {most : Nat} {length : Option Nat} (hmost : most < 2147483648) :
    readNullableLength most p context boundary = .ok (length, p')
      ↔ context.origin + p.total ≤ u64Max ∧ p.Begins (spellLength length)
        ∧ p' = p.advance (spellLength length).length
        ∧ ∀ n ∈ length, n ≤ most ∧ n ≤ p'.rest.length := by
  unfold readNullableLength
  simp only [bind_eq_ok, Prod.exists, probeVaruint_eq_ok (.inl rfl), require_eq_ok, exists_const,
    Parser.remaining_eq]
  constructor
  · rintro ⟨bits, size, ⟨hfits, hbits, hbegins, rfl⟩, hlow, h⟩
    have hspell : spellVarint (decodeZigzag bits) = spellVaruint bits := by
      unfold spellVarint
      rw [encodeZigzag_decodeZigzag]
    split at h
    next hnone =>
      obtain ⟨rfl, rfl⟩ := Prod.mk.inj (pure_eq_ok.mp h)
      have hlength : spellLength none = spellVaruint bits := by
        rw [← hspell, hnone]
        rfl
      rw [hlength]
      exact ⟨hfits, hbegins, rfl, by simp⟩
    next hsome =>
      simp only [bind_eq_ok, require_eq_ok, exists_const] at h
      obtain ⟨hle, hroom, h⟩ := h
      obtain ⟨rfl, rfl⟩ := Prod.mk.inj (pure_eq_ok.mp h)
      have hlength : spellLength (some (decodeZigzag bits).toNat) = spellVaruint bits := by
        rw [← hspell]
        unfold spellLength
        congr 1
        exact Int.toNat_of_nonneg (by omega)
      rw [hlength]
      refine ⟨hfits, hbegins, rfl, ?_⟩
      intro n hn
      cases hn
      rw [Parser.advance_rest hbegins.length_le, List.length_drop]
      exact ⟨hle, hroom⟩
  · rintro ⟨hfits, hbegins, rfl, hroom⟩
    cases length with
    | none =>
      refine ⟨1, _, ⟨hfits, by decide, hbegins, rfl⟩, by decide, ?_⟩
      rw [if_pos (by decide)]
      rfl
    | some n =>
      obtain ⟨hle, hrest⟩ := hroom n rfl
      rw [Parser.advance_rest hbegins.length_le, List.length_drop] at hrest
      have hdecoded : decodeZigzag (encodeZigzag n) = n := decodeZigzag_encodeZigzag
      refine ⟨encodeZigzag n, _, ⟨hfits, ?_, hbegins, rfl⟩, ?_, ?_⟩
      · unfold encodeZigzag
        split <;> omega
      · omega
      · rw [hdecoded, if_neg (by omega), Int.toNat_natCast]
        simp only [bind_eq_ok, require_eq_ok, exists_const]
        exact ⟨hle, hrest, rfl⟩

end KwaqueStorage.Records
