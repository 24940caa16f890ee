import KwaqueStorage.Records.Encode

/-!
# Numbers on the wire, bit by bit

The codec reads and writes numbers with shifts and masks over words of 32 and 64 bits. These are its loops
as they are written, and each is the arithmetic of `Lib.Base128`: the mask of a byte is its residue, the
shift a power of two, and bits that are set where none were before are added. What the arithmetic says of
spellings is then said of the loops, through any fragmentation.
-/

namespace KwaqueStorage.Records

open Extent (u64Max)
open Lib

/-! ## The loops -/

/-- The loop of `probe_varuint_value`. The byte is promoted before it is shifted. -/
def probeWord (w : Nat) : Nat → BitVec w → List UInt8 → Except Base128.Refusal (BitVec w × Nat)
  | _, _, [] => .error .shortage
  | index, value, octet :: rest =>
    if octet = 0 ∧ 7 * index ≠ 0 then .error (.malformed index)
    else if w - 7 * index ≤ 7 ∧ octet.toNat >>> (w - 7 * index) ≠ 0 then .error (.malformed index)
    else
      let value := value ||| (BitVec.ofNat w (octet.toNat &&& 0x7f) <<< (7 * index))
      if octet.toNat &&& 0x80 = 0 then .ok (value, index + 1) else probeWord w (index + 1) value rest

/-- `probe_varuint_value`. -/
def probeVaruintWord (w : Nat) (p : Parser) (context : FieldContext) (boundary : InputBoundary) :
    Except CodecError (BitVec w × Nat) := do
  let start ← readStart p context
  match probeWord w 0 0 (p.peek (min p.remaining ((w + 6) / 7))) with
  | .ok probed => pure probed
  | .error (.malformed index) => .error (context.error .malformedData (start + index))
  | .error .shortage => .error (shortage p context boundary)

/-- `read_varuint_value`: the input moves once the whole number is known to be there. -/
def readVaruintWord (w : Nat) (p : Parser) (context : FieldContext) (boundary : InputBoundary) :
    Except CodecError (BitVec w) × Parser :=
  match probeVaruintWord w p context boundary with
  | .error why => (.error why, p)
  | .ok (value, size) => (.ok value, p.advance size)

/-- `decode_zigzag`. -/
def decodeZigzagWord {w : Nat} (bits : BitVec w) : BitVec w := (bits >>> 1) ^^^ (0 - (bits &&& 1))

/-- `encode_zigzag`. -/
def encodeZigzagWord {w : Nat} (value : BitVec w) : BitVec w := (value <<< 1) ^^^ (0 - (value >>> (w - 1)))

/-- `read_varint`. -/
def readVarintWord (w : Nat) (p : Parser) (context : FieldContext) (boundary : InputBoundary) :
    Except CodecError (BitVec w) × Parser :=
  match readVaruintWord w p context boundary with
  | (.error why, p') => (.error why, p')
  | (.ok bits, p') => (.ok (decodeZigzagWord bits), p')

/-- `read_nullable_length`. -/
def readNullableLengthWord (most : Nat) (p : Parser) (context : FieldContext) (boundary : InputBoundary) :
    Except CodecError (Option Nat) × Parser :=
  match probeVaruintWord 32 p context boundary with
  | .error why => (.error why, p)
  | .ok (bits, size) =>
    let start := context.origin + p.consumed
    let decoded := (decodeZigzagWord bits).toInt
    if decoded < -1 then (.error (context.error .malformedData start), p)
    else if decoded = -1 then (.ok none, p.advance size)
    else if most < decoded.toNat then (.error (context.error .resourceExhausted start), p)
    else if p.remaining - size < decoded.toNat then (.error (shortage p context boundary), p)
    else (.ok (some decoded.toNat), p.advance size)

/-- The loop of `write_varuint_value`, for which the fuel has to suffice. -/
def varuintBytes : Nat → BitVec 64 → List UInt8
  | 0, _ => []
  | fuel + 1, value =>
    if value.toNat < 0x80 then [UInt8.ofBitVec (value.setWidth 8)]
    else UInt8.ofBitVec (((value &&& 0x7f) ||| 0x80).setWidth 8) :: varuintBytes fuel (value >>> 7)

/-- `write_varuint`. -/
def writeVaruintWord {w : Nat} (output : Output) (value : BitVec w) (context : FieldContext) :
    Except CodecError Output := appendInteger output (varuintBytes 10 (value.setWidth 64)) context

/-- `write_varint`. -/
def writeVarintWord {w : Nat} (output : Output) (value : BitVec w) (context : FieldContext) :
    Except CodecError Output := writeVaruintWord output (encodeZigzagWord value) context

/-! ## The loops are the arithmetic -/

theorem and_127 (n : Nat) : n &&& 0x7f = n % 128 := Nat.and_two_pow_sub_one_eq_mod n 7

theorem and_128_eq_zero : ∀ n < 256, (n &&& 0x80 = 0 ↔ n < 128) := by decide +kernel

theorem varuintBytes_eq {fuel : Nat} {value : BitVec 64} :
    varuintBytes fuel value = Base128.digits fuel value.toNat := by
  induction fuel generalizing value with
  | zero => rfl
  | succ fuel ih =>
    rw [varuintBytes, Base128.digits]
    split
    next =>
      congr 1
    next =>
      congr 1
      · refine UInt8.toNat_inj.mp ?_
        have hlow : (value &&& 0x7f).toNat = value.toNat % 128 := by
          rw [BitVec.toNat_and]
          exact and_127 _
        have hor : (value.toNat % 128) ||| 128 = value.toNat % 128 + 128 := by
          have hsum : 128 + value.toNat % 128 = 128 ||| value.toNat % 128 :=
            Nat.two_pow_add_eq_or_of_lt (i := 7) (Nat.mod_lt value.toNat (by decide)) 1
          rw [Nat.or_comm, ← hsum, Nat.add_comm]
        rw [UInt8.toNat_ofBitVec, BitVec.toNat_setWidth, BitVec.toNat_or, hlow, UInt8.toNat_ofNat']
        exact congrArg (· % 2 ^ 8) hor
      · rw [ih, BitVec.toNat_ushiftRight, Nat.shiftRight_eq_div_pow]

/-- The value of a byte shifted behind those before it. -/
theorem or_shift {w index : Nat} {value : BitVec w} {low : Nat} (hvalue : value.toNat < 2 ^ (7 * index))
    (hfits : low * 2 ^ (7 * index) < 2 ^ w) :
    (value ||| (BitVec.ofNat w low <<< (7 * index))).toNat = value.toNat + low * 2 ^ (7 * index) := by
  have hlow : low < 2 ^ w := Nat.lt_of_le_of_lt (Nat.le_mul_of_pos_right _ (Nat.two_pow_pos _)) hfits
  have hsum : 2 ^ (7 * index) * low + value.toNat = 2 ^ (7 * index) * low ||| value.toNat :=
    Nat.two_pow_add_eq_or_of_lt hvalue low
  rw [BitVec.toNat_or, BitVec.toNat_shiftLeft, BitVec.toNat_ofNat, Nat.mod_eq_of_lt hlow,
    Nat.shiftLeft_eq, Nat.mod_eq_of_lt hfits, Nat.or_comm, Nat.mul_comm low, ← hsum, Nat.add_comm]

theorem probeWord_eq {w index : Nat} {value : BitVec w} {octets : List UInt8}
    (hvalue : value.toNat < 2 ^ (7 * index)) (hindex : 7 * index < w) :
    (probeWord w index value octets).map (fun probed => (probed.1.toNat, probed.2))
      = Base128.probe w index value.toNat octets := by
  induction octets generalizing index value with
  | nil => rfl
  | cons octet rest ih =>
    have hoctet := octet.toNat_lt
    have hzero : (octet = 0 ∧ 7 * index ≠ 0) ↔ (octet = 0 ∧ index ≠ 0) := and_congr_right fun _ => by omega
    have hlast : octet.toNat >>> (w - 7 * index) ≠ 0 ↔ 2 ^ (w - 7 * index) ≤ octet.toNat := by
      rw [Nat.shiftRight_eq_div_pow, Ne, Nat.div_eq_zero_iff_lt (Nat.two_pow_pos _), not_lt]
    rw [probeWord, Base128.probe]
    simp only [hzero, hlast, and_127, and_128_eq_zero _ hoctet]
    by_cases hover : octet = 0 ∧ index ≠ 0
    · rw [if_pos hover, if_pos hover]
      rfl
    rw [if_neg hover, if_neg hover]
    by_cases hwide : w - 7 * index ≤ 7 ∧ 2 ^ (w - 7 * index) ≤ octet.toNat
    · rw [if_pos hwide, if_pos hwide]
      rfl
    rw [if_neg hwide, if_neg hwide]
    have hfits : octet.toNat % 128 * 2 ^ (7 * index) < 2 ^ w := by
      have hsplit : 2 ^ w = 2 ^ (w - 7 * index) * 2 ^ (7 * index) := by
        rw [← Nat.pow_add]
        congr 1
        omega
      rw [hsplit]
      refine Nat.mul_lt_mul_of_pos_right ?_ (Nat.two_pow_pos _)
      by_cases hfew : w - 7 * index ≤ 7
      · have := Nat.lt_of_not_le fun hle => hwide ⟨hfew, hle⟩
        omega
      · have : 2 ^ 7 ≤ 2 ^ (w - 7 * index) := Nat.pow_le_pow_right (by decide) (by omega)
        omega
    have hor := or_shift hvalue hfits
    split
    next =>
      rw [← hor]
      rfl
    next hmore =>
      have hroom : 7 * (index + 1) < w := by
        by_contra hle
        refine hwide ⟨by omega, ?_⟩
        have : 2 ^ (w - 7 * index) ≤ 2 ^ 7 := Nat.pow_le_pow_right (by decide) (by omega)
        omega
      have hnext : 2 ^ (7 * (index + 1)) = 128 * 2 ^ (7 * index) := by
        rw [Nat.mul_add, Nat.pow_add]
        omega
      have hlow : octet.toNat % 128 * 2 ^ (7 * index) ≤ 127 * 2 ^ (7 * index) :=
        Nat.mul_le_mul_right _ (by omega)
      rw [ih (by omega) hroom, hor]

theorem toNat_encodeZigzagWord {w : Nat} (hw : 0 < w) (value : BitVec w) :
    (encodeZigzagWord value).toNat = encodeZigzag value.toInt := by
  have hpow : 2 ^ w = 2 * 2 ^ (w - 1) := by
    rw [← Nat.pow_succ']
    congr 1
    omega
  have hlt := value.isLt
  have hsign : (value >>> (w - 1)).toNat = value.toNat / 2 ^ (w - 1) := by
    rw [BitVec.toNat_ushiftRight, Nat.shiftRight_eq_div_pow]
  have hdouble : (value <<< 1).toNat = 2 * value.toNat % 2 ^ w := by
    rw [BitVec.toNat_shiftLeft, Nat.shiftLeft_eq, Nat.mul_comm]
  have hint := @BitVec.toInt_eq_toNat_cond w value
  unfold encodeZigzagWord encodeZigzag
  by_cases hneg : value.toNat < 2 ^ (w - 1)
  · have hmask : value >>> (w - 1) = 0#w := BitVec.eq_of_toNat_eq (by
      rw [hsign, Nat.div_eq_of_lt hneg]
      rfl)
    rw [if_pos (by omega)] at hint
    rw [hmask, hint, if_pos (Int.natCast_nonneg _)]
    show (value <<< 1 ^^^ (0#w - 0#w)).toNat = _
    rw [BitVec.sub_zero, BitVec.xor_zero, hdouble, Nat.mod_eq_of_lt (by omega)]
    rfl
  · have hmask : value >>> (w - 1) = 1#w := BitVec.eq_of_toNat_eq (by
      rw [hsign, BitVec.toNat_ofNat, Nat.mod_eq_of_lt (Nat.one_lt_two_pow (by omega))]
      refine Nat.div_eq_of_lt_le ?_ ?_ <;> omega)
    have hover : 2 * value.toNat % 2 ^ w = 2 * value.toNat - 2 ^ w := by
      rw [Nat.mod_eq_sub_mod (by omega), Nat.mod_eq_of_lt (by omega)]
    rw [if_neg (by omega)] at hint
    rw [hmask, if_neg (by omega)]
    show (value <<< 1 ^^^ (0#w - 1#w)).toNat = _
    rw [BitVec.zero_sub, BitVec.neg_one_eq_allOnes, BitVec.xor_allOnes, BitVec.toNat_not, hdouble, hover]
    omega

theorem toInt_decodeZigzagWord {w : Nat} (hw : 0 < w) (bits : BitVec w) :
    (decodeZigzagWord bits).toInt = decodeZigzag bits.toNat := by
  have hpow : 2 ^ w = 2 * 2 ^ (w - 1) := by
    rw [← Nat.pow_succ']
    congr 1
    omega
  have hlt := bits.isLt
  have hhalf : (bits >>> 1).toNat = bits.toNat / 2 := by
    rw [BitVec.toNat_ushiftRight, Nat.shiftRight_eq_div_pow]
  have hlow : (bits &&& 1#w).toNat = bits.toNat % 2 := by
    rw [BitVec.toNat_and, BitVec.toNat_ofNat, Nat.mod_eq_of_lt (Nat.one_lt_two_pow (by omega))]
    exact Nat.and_one_is_mod _
  have hword : decodeZigzagWord bits = (bits >>> 1) ^^^ (0#w - (bits &&& 1#w)) := rfl
  rw [BitVec.toInt_eq_toNat_cond, hword]
  unfold decodeZigzag
  by_cases heven : bits.toNat % 2 = 0
  · have hmask : bits &&& 1#w = 0#w := BitVec.eq_of_toNat_eq (by
      rw [hlow, heven]
      rfl)
    rw [hmask, BitVec.sub_zero, BitVec.xor_zero, hhalf, if_pos heven, if_pos (by omega)]
    rfl
  · have hmask : bits &&& 1#w = 1#w := BitVec.eq_of_toNat_eq (by
      rw [hlow, BitVec.toNat_ofNat, Nat.mod_eq_of_lt (Nat.one_lt_two_pow (by omega))]
      omega)
    rw [hmask, BitVec.zero_sub, BitVec.neg_one_eq_allOnes, BitVec.xor_allOnes, BitVec.toNat_not, hhalf,
      if_neg heven, if_neg (by omega)]
    omega

theorem decodeZigzagWord_encodeZigzagWord {w : Nat} (hw : 0 < w) (value : BitVec w) :
    decodeZigzagWord (encodeZigzagWord value) = value := by
  refine BitVec.eq_of_toInt_eq ?_
  rw [toInt_decodeZigzagWord hw, toNat_encodeZigzagWord hw, decodeZigzag_encodeZigzag]

theorem encodeZigzagWord_decodeZigzagWord {w : Nat} (hw : 0 < w) (bits : BitVec w) :
    encodeZigzagWord (decodeZigzagWord bits) = bits := by
  refine BitVec.eq_of_toNat_eq ?_
  rw [toNat_encodeZigzagWord hw, toInt_decodeZigzagWord hw, encodeZigzag_decodeZigzag]

/-! ## What is read and written -/

section Read

variable {w : Nat} {p p' : Parser} {context : FieldContext} {boundary : InputBoundary}

/-- The bytes of a word. -/
def wordBytes (value : BitVec w) : List UInt8 := varuintBytes 10 (value.setWidth 64)

theorem wordBytes_eq (hw : WireBits w) (value : BitVec w) : wordBytes value = spellVaruint value.toNat := by
  have hlt := value.isLt
  unfold wordBytes spellVaruint
  rw [varuintBytes_eq, BitVec.toNat_setWidth, Nat.mod_eq_of_lt]
  rcases hw with rfl | rfl <;> omega

theorem probeVaruintWord_eq_ok (hw : WireBits w) {value : BitVec w} {size : Nat} :
    probeVaruintWord w p context boundary = .ok (value, size)
      ↔ context.origin + p.total ≤ u64Max ∧ p.Begins (wordBytes value) ∧ size = (wordBytes value).length := by
  have hmap : (probeVaruintWord w p context boundary).map (fun probed => (probed.1.toNat, probed.2))
      = probeVaruint w p context boundary := by
    have hprobe := @probeWord_eq w 0 0 (p.peek (min p.remaining ((w + 6) / 7))) (by simp)
      (by rcases hw with rfl | rfl <;> decide)
    have hzero : (0 : BitVec w).toNat = 0 := by simp
    unfold probeVaruintWord probeVaruint
    rw [hzero] at hprobe
    rw [← hprobe]
    cases readStart p context with
    | error why => rfl
    | ok start =>
      show Except.map _ (match probeWord w 0 0 _ with | .ok _ => _ | .error (.malformed _) => _ | .error .shortage => _) = _
      cases probeWord w 0 0 (p.peek (min p.remaining ((w + 6) / 7))) with
      | ok probed => rfl
      | error why => cases why <;> rfl
  have hiff : probeVaruintWord w p context boundary = .ok (value, size)
      ↔ probeVaruint w p context boundary = .ok (value.toNat, size) := by
    rw [← hmap]
    cases probeVaruintWord w p context boundary with
    | error why => exact iff_of_false nofun nofun
    | ok probed =>
      simp only [Except.map, Except.ok.injEq, Prod.ext_iff, BitVec.toNat_inj]
  rw [hiff, probeVaruint_eq_ok hw, wordBytes_eq hw]
  exact and_congr_right fun _ => and_iff_right value.isLt

theorem readVaruintWord_eq_ok (hw : WireBits w) {value : BitVec w} :
    readVaruintWord w p context boundary = (.ok value, p')
      ↔ context.origin + p.total ≤ u64Max ∧ p.Begins (wordBytes value)
        ∧ p' = p.advance (wordBytes value).length := by
  unfold readVaruintWord
  constructor
  · intro h
    split at h
    next => cases h
    next probed size hprobe =>
      cases h
      obtain ⟨hfits, hbegins, rfl⟩ := (probeVaruintWord_eq_ok hw).mp hprobe
      exact ⟨hfits, hbegins, rfl⟩
  · rintro ⟨hfits, hbegins, rfl⟩
    rw [(probeVaruintWord_eq_ok hw).mpr ⟨hfits, hbegins, rfl⟩]

theorem readVarintWord_eq_ok (hw : WireBits w) {value : BitVec w} :
    readVarintWord w p context boundary = (.ok value, p')
      ↔ context.origin + p.total ≤ u64Max ∧ p.Begins (wordBytes (encodeZigzagWord value))
        ∧ p' = p.advance (wordBytes (encodeZigzagWord value)).length := by
  have hpos : 0 < w := by rcases hw with rfl | rfl <;> decide
  rw [← readVaruintWord_eq_ok hw]
  unfold readVarintWord
  constructor
  · intro h
    split at h
    next => cases h
    next bits q hread =>
      cases h
      rw [hread, encodeZigzagWord_decodeZigzagWord hpos]
  · intro h
    rw [h]
    exact congrArg (·, p') (congrArg Except.ok (decodeZigzagWord_encodeZigzagWord hpos value))

/-- The length of a payload, as the word it is written as. -/
theorem spellLength_eq {length : Option Nat} (h : length.getD 0 ≤ 2147483647) :
    ∃ bits : BitVec 32, wordBytes bits = spellLength length
      ∧ (decodeZigzagWord bits).toInt = length.elim (-1) fun n => (n : Int) := by
  have hint : (BitVec.ofInt 32 (length.elim (-1) fun n => (n : Int))).toInt
      = length.elim (-1) fun n => (n : Int) := by
    rw [BitVec.toInt_ofInt]
    cases length with
    | none => rfl
    | some n =>
      replace h : n ≤ 2147483647 := h
      show Int.bmod (n : Int) _ = n
      exact Int.bmod_eq_of_le (by omega) (by omega)
  refine ⟨encodeZigzagWord (BitVec.ofInt 32 (length.elim (-1) fun n => (n : Int))), ?_, ?_⟩
  · rw [wordBytes_eq (.inl rfl), toNat_encodeZigzagWord (by decide), hint]
    rfl
  · rw [decodeZigzagWord_encodeZigzagWord (by decide), hint]

theorem readNullableLengthWord_ok {most : Nat} {length : Option Nat} {more : List UInt8}
    (hfits : context.origin + p.total ≤ u64Max) (hsmall : length.getD 0 ≤ 2147483647)
    (hmost : length.getD 0 ≤ most) (hrest : p.rest = spellLength length ++ more)
    (hpayload : length.getD 0 ≤ more.length) : readNullableLengthWord most p context boundary
      = (.ok length, p.advance (spellLength length).length) := by
  obtain ⟨bits, hbytes, hdecoded⟩ := spellLength_eq hsmall
  have hprobe := (@probeVaruintWord_eq_ok 32 p context boundary (.inl rfl) bits _).mpr
    ⟨hfits, ⟨more, by rw [hbytes, hrest]⟩, rfl⟩
  have hremaining : p.remaining - (spellLength length).length = more.length := by
    rw [Parser.remaining_eq, hrest, List.length_append, Nat.add_sub_cancel_left]
  unfold readNullableLengthWord
  rw [hprobe]
  dsimp only
  rw [hbytes, hremaining]
  cases length with
  | none =>
    replace hdecoded : (decodeZigzagWord bits).toInt = -1 := hdecoded
    rw [if_neg (by omega), if_pos hdecoded]
  | some n =>
    replace hdecoded : (decodeZigzagWord bits).toInt = n := hdecoded
    replace hmost : n ≤ most := hmost
    replace hpayload : n ≤ more.length := hpayload
    have hnat : (decodeZigzagWord bits).toInt.toNat = n := by omega
    rw [if_neg (by omega), if_neg (by omega), hnat, if_neg (Nat.not_lt.mpr hmost),
      if_neg (Nat.not_lt.mpr hpayload)]

/-- **A reader that fails** leaves its input where it was. -/
theorem failed_read {most : Nat} {why : CodecError} :
    ((readVaruintWord w p context boundary).1 = .error why → (readVaruintWord w p context boundary).2 = p)
    ∧ ((readVarintWord w p context boundary).1 = .error why → (readVarintWord w p context boundary).2 = p)
    ∧ ((readNullableLengthWord most p context boundary).1 = .error why →
        (readNullableLengthWord most p context boundary).2 = p) := by
  unfold readVarintWord readNullableLengthWord readVaruintWord
  refine ⟨?_, ?_, ?_⟩
  · cases probeVaruintWord w p context boundary with
    | error other => exact fun _ => rfl
    | ok probed => exact nofun
  · cases probeVaruintWord w p context boundary with
    | error other => exact fun _ => rfl
    | ok probed => exact nofun
  · cases probeVaruintWord 32 p context boundary with
    | error other => exact fun _ => rfl
    | ok probed =>
      dsimp only
      split
      next => exact fun _ => rfl
      next =>
        split
        next => exact nofun
        next =>
          split
          next => exact fun _ => rfl
          next =>
            split
            next => exact fun _ => rfl
            next => exact nofun

end Read

/-- A number is written behind an output that has room for its bytes, and its bytes alone are written. They
    are read back, through any fragmentation and whatever follows them, by a read that moves past them. A
    length is read back when its payload follows. -/
def ReadsBack {α : Type} (output : Output) (origin : Nat) (written : Except CodecError Output) (value : α)
    (payload : Nat) (read : Parser → FieldContext → InputBoundary → Except CodecError α × Parser) : Prop :=
  ∃ octets, (Room output origin octets → written = .ok (output.push octets))
    ∧ (∀ output', written = .ok output' → output' = output.push octets)
    ∧ ∀ p context boundary more, context.origin + p.total ≤ u64Max → p.rest = octets ++ more →
      payload ≤ more.length →
      read p context boundary = (.ok value, p.advance octets.length) ∧ (p.advance octets.length).rest = more

/-- **Numbers on the wire.** A number is read exactly when the input begins with the bytes that are written
    for it, which are the unique shortest spelling of it; what is written is read back, signed or not, and
    the length of a payload too; and a read that fails consumes nothing. -/
theorem numbers_on_the_wire {w : Nat} (hw : WireBits w) :
    (∀ p context boundary value p', readVaruintWord w p context boundary = (.ok value, p')
      ↔ context.origin + p.total ≤ u64Max ∧ p.Begins (wordBytes value)
        ∧ p' = p.advance (wordBytes value).length)
    ∧ (∀ value : BitVec w, Base128.Spells (wordBytes value) value.toNat
      ∧ ∀ octets, Base128.Spells octets value.toNat →
        octets = wordBytes value ∨ (wordBytes value).length < octets.length)
    ∧ (∀ output (value : BitVec w) context,
      ReadsBack output context.origin (writeVaruintWord output value context) value 0 (readVaruintWord w))
    ∧ (∀ output (value : BitVec w) context,
      ReadsBack output context.origin (writeVarintWord output value context) value 0 (readVarintWord w))
    ∧ (∀ output (length : Option Nat) most context, length.getD 0 ≤ most → length.getD 0 ≤ 2147483647 →
      ReadsBack output context.origin (writeNullableLength output length most context) length (length.getD 0)
        (readNullableLengthWord most))
    ∧ ∀ p context boundary most why,
      ((readVaruintWord w p context boundary).1 = .error why → (readVaruintWord w p context boundary).2 = p)
      ∧ ((readVarintWord w p context boundary).1 = .error why → (readVarintWord w p context boundary).2 = p)
      ∧ ((readNullableLengthWord most p context boundary).1 = .error why →
        (readNullableLengthWord most p context boundary).2 = p) := by
  refine ⟨fun p context boundary value p' => readVaruintWord_eq_ok hw, fun value => ?_, ?_, ?_, ?_,
    fun p context boundary most why => failed_read⟩
  · have hlt : value.toNat < 128 ^ (9 + 1) := by
      have := value.isLt
      rcases hw with rfl | rfl <;> omega
    rw [wordBytes_eq hw]
    exact ⟨Base128.spells_digits hlt, fun octets hspells => hspells.shortest hlt⟩
  · intro output value context
    refine ⟨wordBytes value, appendInteger_succeeds, fun _ => appendInteger_bytes, ?_⟩
    intro p context boundary more hfits hrest _
    obtain ⟨hbegins, hmore⟩ := Parser.rest_eq_append.mp hrest
    exact ⟨(readVaruintWord_eq_ok hw).mpr ⟨hfits, hbegins, rfl⟩, hmore⟩
  · intro output value context
    refine ⟨wordBytes (encodeZigzagWord value), appendInteger_succeeds, fun _ => appendInteger_bytes, ?_⟩
    intro p context boundary more hfits hrest _
    obtain ⟨hbegins, hmore⟩ := Parser.rest_eq_append.mp hrest
    exact ⟨(readVarintWord_eq_ok hw).mpr ⟨hfits, hbegins, rfl⟩, hmore⟩
  · intro output length most context hmost hsmall
    refine ⟨spellLength length, fun hroom => writeNullableLength_succeeds hroom hsmall hmost,
      fun _ => writeNullableLength_bytes, ?_⟩
    intro p context boundary more hfits hrest hpayload
    exact ⟨readNullableLengthWord_ok hfits hsmall hmost hrest hpayload, (Parser.rest_eq_append.mp hrest).2⟩

/-- Three hundred in two fragments, and a byte after it. -/
theorem numbers_on_the_wire_300 :
    ∃ p', readVaruintWord 32 (.start ⟨[[0xac], [0x02, 0x07]], by decide⟩) ⟨0, .keyLength⟩ .complete
      = (.ok 300, p') :=
  ⟨_, ((numbers_on_the_wire (.inl rfl)).1 _ _ _ _ _).mpr ⟨by decide, ⟨[0x07], by decide⟩, rfl⟩⟩

end KwaqueStorage.Records
