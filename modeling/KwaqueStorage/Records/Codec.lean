import KwaqueStorage.Records.Encode

/-!
# One spelling for every record

The transaction around the body: whatever fails leaves the parser as it was, and a record is accepted
exactly when the input goes on with its one spelling. So encoding and decoding undo each other:
`record_codec_canonical`.

Two limits of a policy are no part of what a record says: how many records a batch may have had, and how
many fragments a buffer may have. The decoder refuses by these as well.
-/

namespace KwaqueStorage.Records

open Extent (u64Max)
open Layout Lib

variable {α : Type} {env : Environment} {mode : Nat → Mode α} {policy : Limits}
  {expected : DecodeContext} {boundary : InputBoundary}

/-! ## A failure leaves the parser as it was -/

variable {context : FieldContext}

theorem readBodyLength_advance {start length : Nat} {p q : Parser}
    (h : readBodyLength env start p context boundary = .ok (length, q)) : ∃ count, q = p.advance count := by
  unfold readBodyLength at h
  simp only [bind_eq_ok, pass_eq_ok, exists_const, readVaruint_eq_ok (.inl rfl)] at h
  exact ⟨_, h.2.2.2.2⟩

/-- Inside the transaction the cursor moves, and nothing else of the parser changes. -/
theorem decodeMarked_frame {start : Nat} {p : Parser} {context : FieldContext} :
    (decodeMarked env mode policy expected start p context boundary).2.buffer = p.buffer
      ∧ (decodeMarked env mode policy expected start p context boundary).2.checkpoints
        = p.checkpoints := by
  unfold decodeMarked
  split
  next => exact ⟨rfl, rfl⟩
  next length q hlength =>
    obtain ⟨count, rfl⟩ := readBodyLength_advance hlength
    split
    next => exact ⟨Parser.advance_buffer, Parser.advance_checkpoints⟩
    next =>
      dsimp only
      rw [Parser.advance_buffer, Parser.advance_checkpoints]
      exact ⟨Parser.advance_buffer, Parser.advance_checkpoints⟩

theorem admitDecode_eq_ok {input marked : Parser} {start : Nat} :
    admitDecode env policy expected input context = .ok (start, marked)
      ↔ context.origin + input.total ≤ u64Max ∧ start = context.origin + input.consumed
        ∧ env ⟨.enter, .bodyBytes, context.origin + input.consumed⟩ = none ∧ expected.originalCount ≠ 0
        ∧ (expected.originalCount ≤ policy.config.maxOriginalRecords
          ∧ 128 ≤ policy.config.maxWorkBytes ∧ 64 ≤ policy.config.maxWorkItems)
        ∧ input.checkpoints.length ≠ maxParserCheckpoints ∧ marked = input.marked := by
  unfold admitDecode readStart
  simp only [bind_eq_ok, pass_eq_ok, require_eq_ok, exists_const, pure_eq_ok, mapError_eq_ok,
    Parser.pushCheckpoint_eq_ok, Prod.mk.injEq]
  constructor
  · rintro ⟨_, ⟨hfits, rfl⟩, henv, hzero, hlimits, _, ⟨hdepth, rfl⟩, rfl, rfl⟩
    exact ⟨hfits, rfl, henv, hzero, hlimits, hdepth, rfl⟩
  · rintro ⟨hfits, rfl, henv, hzero, hlimits, hdepth, rfl⟩
    exact ⟨_, ⟨hfits, rfl⟩, henv, hzero, hlimits, _, ⟨hdepth, rfl⟩, rfl, rfl⟩

/-- **A failure leaves the parser as it was**, checkpoints and all. -/
theorem decodeRecordImpl_error {input : Parser} {origin : Nat} {e : CodecError}
    (h : (decodeRecordImpl env mode policy expected input origin boundary).1 = .error e) :
    (decodeRecordImpl env mode policy expected input origin boundary).2 = input := by
  unfold decodeRecordImpl at h ⊢
  split at h
  next e' hadmitted => rfl
  next start marked hadmitted =>
    obtain ⟨_, _, _, _, _, _, rfl⟩ := admitDecode_eq_ok.mp hadmitted
    obtain ⟨hbuffer, hkept⟩ := @decodeMarked_frame α env mode policy expected boundary start input.marked
      ⟨origin, .bodyBytes⟩
    split at h
    next e' p hdecoded =>
      rw [hdecoded] at hbuffer hkept
      exact Parser.rollback_eq hbuffer hkept
    next => cases h

/-! ## What is accepted -/

/-- The body of a spelled record at a cursor, as a buffer of its own. -/
def bodyAt (input : Parser) (content : Content) : Buffer :=
  (input.advance (spellVaruint (spellBody content).length).length).slice (spellBody content).length

/-- What a decoder in some mode returns for a record at a cursor. -/
def placeAt (mode : Nat → Mode α) (input : Parser) (content : Content) : Shape α :=
  placeBody (mode (input.consumed + (spellVaruint (spellBody content).length).length))
    (Parser.start (bodyAt input content)) content

/-- The fragments that the payloads of a record at a cursor come in. -/
def costAt (mode : Nat → Mode α) (input : Parser) (content : Content) : Nat :=
  costBody (mode (input.consumed + (spellVaruint (spellBody content).length).length))
    (Parser.start (bodyAt input content)) content

/-- The input goes on with a record that a decoder in some mode accepts. -/
structure Accepts (mode : Nat → Mode α) (policy : Limits) (expected : DecodeContext) (input : Parser)
    (origin : Nat) (content : Content) : Prop where
  fits : origin + input.total ≤ u64Max
  original : expected.originalCount ≠ 0
  limits : expected.originalCount ≤ policy.config.maxOriginalRecords
    ∧ 128 ≤ policy.config.maxWorkBytes ∧ 64 ≤ policy.config.maxWorkItems
  depth : input.checkpoints.length ≠ maxParserCheckpoints
  spelled : input.Begins (spell content)
  decodable : Decodable policy expected content
  total : (spell content).length ≤ policy.config.maxRecordBytes
  fragments : (bodyAt input content).fragmentCount ≤ policy.config.maxBufferFragments
  charged : costAt mode input content ≤ policy.config.maxBufferFragments

theorem readExtent_free {start length : Nat} {entry p : Parser} {out : Shape α}
    (h : readExtent env mode policy expected start length entry p context boundary = .ok out) :
    readExtent .free mode policy expected start length entry p context boundary = .ok out := by
  unfold readExtent at h ⊢
  simp only [bind_eq_ok, pass_eq_ok, require_eq_ok, exists_const] at h ⊢
  obtain ⟨hlength, htotal, hroom, _, hfragments, shape, hshape, _, h⟩ := h
  exact ⟨hlength, htotal, hroom, rfl, hfragments, shape, readBody_free hshape, rfl, h⟩

/-- **Accepted**, in the transaction: the length, and the body behind it. -/
theorem readExtent_eq_ok {start length : Nat} {entry p : Parser} {out : Shape α}
    (hfits : start + (p.consumed - entry.consumed) + (p.slice length).size ≤ u64Max) :
    readExtent .free mode policy expected start length entry p context boundary = .ok out
      ↔ (6 ≤ length ∧ start + (p.consumed - entry.consumed + length) ≤ u64Max)
        ∧ p.consumed - entry.consumed + length ≤ policy.config.maxRecordBytes ∧ length ≤ p.rest.length
        ∧ (p.slice length).fragmentCount ≤ policy.config.maxBufferFragments
        ∧ ∃ content : Content, (p.slice length).bytes = spellBody content
          ∧ Decodable policy expected content
          ∧ out = placeBody (mode p.consumed) (Parser.start (p.slice length)) content
          ∧ costBody (mode p.consumed) (Parser.start (p.slice length)) content
            ≤ policy.config.maxBufferFragments := by
  unfold readExtent
  simp only [bind_eq_ok, pass_eq_ok, require_eq_ok, exists_const, pure_eq_ok, Parser.remaining_eq]
  constructor
  · rintro ⟨hlength, htotal, hroom, _, hfragments, shape, hshape, _, rfl⟩
    exact ⟨hlength, htotal, hroom, hfragments, (readBody_eq_ok hfits).mp hshape⟩
  · rintro ⟨hlength, htotal, hroom, hfragments, h⟩
    exact ⟨hlength, htotal, hroom, rfl, hfragments, out, (readBody_eq_ok hfits).mpr h, rfl, rfl⟩

theorem readBodyLength_eq_ok {start length : Nat} {p q : Parser} :
    readBodyLength .free start p context boundary = .ok (length, q)
      ↔ context.origin + p.total ≤ u64Max ∧ length < 2 ^ 32 ∧ p.Begins (spellVaruint length)
        ∧ q = p.advance (spellVaruint length).length := by
  unfold readBodyLength
  simp only [bind_eq_ok, pass_eq_ok, exists_const, readVaruint_eq_ok (.inl rfl)]
  exact and_iff_right rfl

theorem readBodyLength_free {start : Nat} {p : Parser} {out : Nat × Parser}
    (h : readBodyLength env start p context boundary = .ok out) :
    readBodyLength .free start p context boundary = .ok out := by
  unfold readBodyLength at h ⊢
  simp only [bind_eq_ok, pass_eq_ok, exists_const] at h ⊢
  exact ⟨rfl, h.2⟩

/-- How a decode succeeds: admitted, the length read, the body read, all of it committed. -/
theorem decodeRecordImpl_cases {input p' : Parser} {origin : Nat} {out : Shape α} :
    decodeRecordImpl env mode policy expected input origin boundary = (.ok out, p')
      ↔ ∃ start marked length q, admitDecode env policy expected input ⟨origin, .bodyBytes⟩
            = .ok (start, marked)
        ∧ readBodyLength env start marked ⟨origin, .bodyBytes⟩ boundary = .ok (length, q)
        ∧ readExtent env mode policy expected start length marked q ⟨origin, .bodyBytes⟩ boundary
            = .ok out
        ∧ p' = (q.advance length).commit := by
  unfold decodeRecordImpl decodeMarked
  constructor
  · intro h
    split at h
    next => cases h
    next start marked hadmitted =>
      split at h
      next => cases h
      next shape p hdecoded =>
        cases h
        split at hdecoded
        next => cases hdecoded
        next length q hlength =>
          split at hdecoded
          next => cases hdecoded
          next hextent =>
            cases hdecoded
            exact ⟨start, marked, length, q, hadmitted, hlength, hextent, rfl⟩
  · rintro ⟨start, marked, length, q, hadmitted, hlength, hextent, rfl⟩
    rw [hadmitted]
    dsimp only
    rw [hlength]
    dsimp only
    rw [hextent]

theorem decodeRecordImpl_free {input p' : Parser} {origin : Nat} {out : Shape α}
    (h : decodeRecordImpl env mode policy expected input origin boundary = (.ok out, p')) :
    decodeRecordImpl .free mode policy expected input origin boundary = (.ok out, p') := by
  rw [decodeRecordImpl_cases] at h ⊢
  obtain ⟨start, marked, length, q, hadmitted, hlength, hextent, h⟩ := h
  rw [admitDecode_eq_ok] at hadmitted
  obtain ⟨hfits, hstart, _, hadmitted⟩ := hadmitted
  exact ⟨start, marked, length, q, admitDecode_eq_ok.mpr ⟨hfits, hstart, rfl, hadmitted⟩,
    readBodyLength_free hlength, readExtent_free hextent, h⟩

/-- **A record is accepted** exactly when the input goes on with its spelling, within the policy and the
    context; what is returned is what the mode makes of it there, and the cursor moves past it. -/
theorem decodeRecordImpl_eq_ok {input p' : Parser} {origin : Nat} {out : Shape α} :
    decodeRecordImpl .free mode policy expected input origin boundary = (.ok out, p')
      ↔ ∃ content, Accepts mode policy expected input origin content
        ∧ out = placeAt mode input content ∧ p' = input.advance (spell content).length := by
  rw [decodeRecordImpl_cases]
  constructor
  · rintro ⟨start, marked, length, q, hadmitted, hlength, hextent, rfl⟩
    obtain ⟨hfits, rfl, _, hzero, hlimits, hdepth, rfl⟩ := admitDecode_eq_ok.mp hadmitted
    obtain ⟨_, _, hbegins, rfl⟩ := readBodyLength_eq_ok.mp hlength
    have hlead : (input.marked.advance (spellVaruint length).length).consumed - input.marked.consumed
        = (spellVaruint length).length := by
      rw [Parser.advance_consumed hbegins.length_le]
      omega
    have hconsumed : (input.marked.advance (spellVaruint length).length).consumed
        = input.consumed + (spellVaruint length).length := Parser.advance_consumed hbegins.length_le
    have hsum := input.consumed_add_rest
    have hle : (spellVaruint length).length ≤ input.rest.length := hbegins.length_le
    have hafter : (input.marked.advance (spellVaruint length).length).rest
        = input.rest.drop (spellVaruint length).length := Parser.advance_rest hbegins.length_le
    have hsize : ((input.marked.advance (spellVaruint length).length).slice length).size
        ≤ input.rest.length - (spellVaruint length).length := by
      unfold Buffer.size
      rw [Parser.slice_bytes, hafter, List.length_take, List.length_drop]
      exact Nat.min_le_right _ _
    dsimp only at hfits
    rw [readExtent_eq_ok (by rw [hlead]; dsimp only; omega)] at hextent
    obtain ⟨_, htotal, hroom, hfragments, content, hspelled, hdecodable, rfl, hcost⟩ := hextent
    rw [hlead] at htotal
    rw [Parser.slice_bytes] at hspelled
    obtain rfl : (spellBody content).length = length := by
      rw [← hspelled, List.length_take_of_le hroom]
    rw [Parser.marked_advance_slice] at hfragments hcost
    rw [hconsumed] at hcost
    refine ⟨content, ⟨hfits, hzero, hlimits, hdepth, ?_, hdecodable, ?_, hfragments, hcost⟩, ?_, ?_⟩
    · refine Parser.begins_append.mpr ⟨hbegins, ?_⟩
      unfold Parser.Begins
      rw [Parser.advance_rest hle, ← hafter]
      exact List.prefix_iff_eq_take.mpr hspelled.symm
    · rw [spell_length, ← spellVaruint_length, Nat.add_comm]
      exact htotal
    · rw [Parser.marked_advance_slice, hconsumed]
      rfl
    · have hboth : (spellVaruint (spellBody content).length).length + (spellBody content).length
          ≤ input.marked.rest.length := by
        rw [hafter, List.length_drop] at hroom
        change _ ≤ input.rest.length
        omega
      rw [Parser.advance_advance hboth, Parser.commit_marked_advance]
      unfold spell
      rw [List.length_append]
  · rintro ⟨content, haccepts, rfl, rfl⟩
    have hlarge := policy.maxRecordBytes_le
    have hspelled := haccepts.spelled
    have htotal := haccepts.total
    have hall := hspelled.length_le
    have hfits := haccepts.fits
    have hsum := input.consumed_add_rest
    have hsix := @six_le_spellBody content
    obtain ⟨hbegins, hbody⟩ := Parser.begins_append.mp hspelled
    unfold spell at htotal hall
    rw [List.length_append] at htotal hall
    have hmarked : input.marked.Begins (spellVaruint (spellBody content).length) := hbegins
    have hconsumed : (input.marked.advance (spellVaruint (spellBody content).length).length).consumed
        = input.consumed + (spellVaruint (spellBody content).length).length :=
      Parser.advance_consumed hmarked.length_le
    have hafter : (input.marked.advance (spellVaruint (spellBody content).length).length).rest
        = (input.advance (spellVaruint (spellBody content).length).length).rest :=
      (Parser.advance_rest hmarked.length_le).trans (Parser.advance_rest hbegins.length_le).symm
    have hlead : (input.marked.advance (spellVaruint (spellBody content).length).length).consumed
        - input.marked.consumed = (spellVaruint (spellBody content).length).length := by
      rw [hconsumed, Parser.marked_consumed]
      omega
    have hbytes : ((input.marked.advance (spellVaruint (spellBody content).length).length).slice
        (spellBody content).length).bytes = spellBody content := by
      rw [Parser.slice_bytes, hafter]
      exact hbody.take
    refine ⟨_, _, _, _, admitDecode_eq_ok.mpr ⟨hfits, rfl, rfl, haccepts.original, haccepts.limits,
      haccepts.depth, rfl⟩, readBodyLength_eq_ok.mpr ⟨hfits, by omega, hmarked, rfl⟩,
      (readExtent_eq_ok ?_).mpr ⟨⟨hsix, ?_⟩, ?_, ?_, ?_, content, hbytes, haccepts.decodable, ?_, ?_⟩, ?_⟩
    · unfold Buffer.size
      rw [hbytes, hlead]
      dsimp only
      omega
    · rw [hlead]
      dsimp only
      omega
    · rw [hlead]
      exact htotal
    · rw [hafter]
      exact hbody.length_le
    · rw [Parser.marked_advance_slice]
      exact haccepts.fragments
    · rw [Parser.marked_advance_slice, hconsumed]
      rfl
    · rw [Parser.marked_advance_slice, hconsumed]
      exact haccepts.charged
    · have hboth : (spellVaruint (spellBody content).length).length + (spellBody content).length
          ≤ input.marked.rest.length := hall
      rw [Parser.advance_advance hboth, Parser.commit_marked_advance]
      unfold spell
      rw [List.length_append]

/-! ## What a mode makes of a record says the same -/

/-- Payloads taken from a buffer mean the bytes they were taken for. -/
def Mode.Denotes {α : Type} (mode : Mode α) (denote : α → List UInt8) (buffer : Buffer) : Prop :=
  ∀ (p : Parser) (length : Nat), p.buffer = buffer → length ≤ p.rest.length →
    denote (mode.value p length) = p.rest.take length

section Denotes

variable {mode : Mode α} {denote : α → List UInt8} {p : Parser} (h : mode.Denotes denote p.buffer)
include h

theorem placeNullable_denotes {payload : Option (List UInt8)} {count : Nat}
    (hbegins : (p.advance count).Begins (spellNullable payload)) :
    (placeNullable mode (p.advance count) payload).map denote = payload := by
  cases payload with
  | none => rfl
  | some octets =>
    rw [spellNullable_some] at hbegins
    obtain ⟨_, hoctets⟩ := Parser.begins_append.mp hbegins
    refine congrArg some ((h _ _ ?_ hoctets.length_le).trans hoctets.take)
    rw [Parser.advance_buffer, Parser.advance_buffer]

theorem placeHeader_denotes {header : List UInt8 × Option (List UInt8)} {count : Nat}
    (hbegins : (p.advance count).Begins (spellHeader header)) :
    (denote (placeHeader mode (p.advance count) header).1,
      (placeHeader mode (p.advance count) header).2.map denote) = header := by
  obtain ⟨_, hrest⟩ := Parser.begins_append.mp hbegins
  obtain ⟨hname, hvalue⟩ := Parser.begins_append.mp hrest
  refine Prod.ext ?_ ?_
  · refine (h _ _ ?_ hname.length_le).trans hname.take
    rw [Parser.advance_buffer, Parser.advance_buffer]
  · refine placeNullable_denotes (p := (p.advance count).advance (spellVaruint header.1.length).length) ?_
      hvalue
    rwa [Parser.advance_buffer, Parser.advance_buffer]

end Denotes

theorem placeHeaders_denotes {mode : Mode α} {denote : α → List UInt8} {p : Parser}
    {headers : List (List UInt8 × Option (List UInt8))} (h : mode.Denotes denote p.buffer)
    (hbegins : p.Begins (spellHeaders headers)) :
    (placeHeaders mode p headers).map (fun header => (denote header.1, header.2.map denote))
      = headers := by
  induction headers generalizing p with
  | nil => rfl
  | cons header rest ih =>
    obtain ⟨hheader, hrest⟩ := Parser.begins_append.mp hbegins
    have hfirst := @placeHeader_denotes α mode denote p h header 0 (Parser.advance_zero.symm ▸ hheader)
    rw [Parser.advance_zero] at hfirst
    rw [placeHeaders, List.map_cons, hfirst]
    exact congrArg _ (ih (by rwa [Parser.advance_buffer]) hrest)

/-- What a mode makes of a body says what the body spells. -/
theorem placeBody_denotes {mode : Mode α} {denote : α → List UInt8} {p : Parser} {content : Content}
    (h : mode.Denotes denote p.buffer) (hrest : p.rest = spellBody content) :
    (placeBody mode p content).map denote = content := by
  rw [spellBody_eq] at hrest
  simp only [Parser.rest_eq_append] at hrest
  obtain ⟨_, hkey, hvalue, _, hheaders⟩ := hrest
  have hbegins : ∀ {q : Parser} {octets : List UInt8}, q.rest = octets → q.Begins octets := by
    rintro q octets rfl
    exact List.prefix_rfl
  unfold Shape.map placeBody
  dsimp only
  rw [placeNullable_denotes h hkey, placeNullable_denotes (by rwa [Parser.advance_buffer]) hvalue,
    placeHeaders_denotes (by simpa only [Parser.advance_buffer] using h) (hbegins hheaders)]

theorem Mode.buffers_denotes {buffer : Buffer} : Mode.buffers.Denotes Buffer.bytes buffer :=
  fun _ _ _ _ => Parser.slice_bytes

/-- The bytes a range names in a region. -/
def ByteRange.bytes (region : List UInt8) (range : ByteRange) : List UInt8 :=
  (region.drop range.offset).take range.length

theorem Mode.ranges_denotes {region : List UInt8} {bodyOffset length : Nat} {buffer : Buffer}
    (h : buffer.bytes = (region.drop bodyOffset).take length) :
    (Mode.ranges bodyOffset).Denotes (ByteRange.bytes region) buffer := by
  rintro p count rfl hcount
  rw [p.rest_eq, h] at hcount ⊢
  rw [List.length_drop, List.length_take, List.length_drop] at hcount
  change (region.drop (bodyOffset + p.consumed)).take count = _
  rw [List.drop_take, List.take_take, List.drop_drop, Nat.min_eq_left (by omega)]

theorem bodyAt_bytes {input : Parser} {content : Content} (h : input.Begins (spell content)) :
    (bodyAt input content).bytes = spellBody content := by
  obtain ⟨_, hbody⟩ := Parser.begins_append.mp h
  unfold bodyAt
  rw [Parser.slice_bytes, hbody.take]

/-- What a decoder returns says what the input spells, whatever its mode. -/
theorem placeAt_denotes {denote : α → List UInt8} {input : Parser} {content : Content}
    (hspelled : input.Begins (spell content))
    (h : (mode (input.consumed + (spellVaruint (spellBody content).length).length)).Denotes denote
      (bodyAt input content)) :
    (placeAt mode input content).map denote = content :=
  placeBody_denotes h (bodyAt_bytes hspelled)

/-! ## Encoding and decoding undo each other -/

theorem decodeRecord_eq_ok {input p' : Parser} {origin : Nat} {decoded : Record} :
    decodeRecord env policy expected input origin boundary = (.ok decoded, p')
      ↔ ∃ shape, decodeRecordImpl env (fun _ => Mode.buffers) policy expected input origin boundary
          = (.ok shape, p') ∧ decoded = shape.record := by
  unfold decodeRecord
  constructor
  · intro h
    obtain ⟨hvalue, hparser⟩ := Prod.mk.inj h
    cases hresult : (decodeRecordImpl env (fun _ => Mode.buffers) policy expected input origin boundary).1 with
    | error e =>
      rw [hresult] at hvalue
      cases hvalue
    | ok shape =>
      rw [hresult] at hvalue
      exact ⟨shape, Prod.ext hresult hparser, (Except.ok.inj hvalue).symm⟩
  · rintro ⟨shape, hresult, rfl⟩
    rw [hresult]
    rfl

/-- What the free decoder accepts, as a record: it says what the input spells. -/
theorem decodeRecord_free_eq_ok {input p' : Parser} {origin : Nat} {decoded : Record}
    (h : decodeRecord env policy expected input origin boundary = (.ok decoded, p')) :
    Accepts (fun _ => Mode.buffers) policy expected input origin decoded.content
      ∧ p' = input.advance (spell decoded.content).length := by
  obtain ⟨shape, himpl, rfl⟩ := decodeRecord_eq_ok.mp h
  obtain ⟨content, haccepts, rfl, rfl⟩ := decodeRecordImpl_eq_ok.mp (decodeRecordImpl_free himpl)
  have hcontent : (placeAt (fun _ => Mode.buffers) input content).record.content = content := by
    rw [Shape.record_content]
    exact placeAt_denotes haccepts.spelled Mode.buffers_denotes
  rw [hcontent]
  exact ⟨haccepts, rfl⟩

/-- What is accepted is within the policy, so it can be encoded. -/
theorem Accepts.within {input : Parser} {origin : Nat} {content : Content}
    (h : Accepts mode policy expected input origin content) : Within policy content where
  attributes := h.decodable.attributes
  headers := (Nat.le_min.mp h.decodable.headers).1
  names := h.decodable.names
  payload := h.decodable.payload
  total := h.total

/-- The key and the value of a record within a policy are. -/
theorem Within.payloads {content : Content} (h : Within policy content) :
    (∀ octets ∈ content.key, octets.length ≤ policy.config.maxRecordBytes)
      ∧ ∀ octets ∈ content.value, octets.length ≤ policy.config.maxRecordBytes := by
  have htotal := h.total
  have hkey := @spellNullable_le content.key
  have hvalue := @spellNullable_le content.value
  rw [spell_length, spellBody_length] at htotal
  constructor
  · intro octets hoctets
    rw [hoctets] at hkey htotal
    dsimp only [Option.elim] at hkey
    omega
  · intro octets hoctets
    rw [hoctets] at hvalue htotal
    dsimp only [Option.elim] at hvalue
    omega

/-- **Every record has one spelling.** Within the limits of the policy on records and fragments, what was
    encoded is decoded to an equal record, of exactly the bytes that were counted and however they are cut
    into fragments. Whatever is decoded encodes to the bytes that were read, and nothing but leave and
    memory stands in the way of that. And a decode that fails, for whatever reason, leaves the parser as
    it was. -/
theorem record_codec_canonical (policy : Limits) :
    (∀ (record : Record) (sizes : RecordSizes) (encoder : EncodeEnvironment) (written : Nat)
        (buffer : Buffer), makeRecord record policy = .ok record →
        recordEncodedSize record policy = .ok sizes →
        encodeRecord encoder policy record written = .ok buffer →
      ∀ (input : Parser) (expected : DecodeContext) (origin : Nat) (boundary : InputBoundary),
        input.Begins buffer.bytes → origin + input.total ≤ u64Max →
        input.checkpoints.length ≠ maxParserCheckpoints →
        record.fields.logicalDelta.toNat < expected.originalCount →
        expected.originalCount ≤ policy.config.maxOriginalRecords →
        Representable expected.timestampBase record.fields.timestampDelta →
        record.headers.length ≤ min policy.config.maxBatchHeaders expected.headersRemaining →
        (bodyAt input record.content).fragmentCount ≤ policy.config.maxBufferFragments →
        costAt (fun _ => Mode.buffers) input record.content ≤ policy.config.maxBufferFragments →
      ∃ decoded, decodeRecord .free policy expected input origin boundary
          = (.ok decoded, input.advance sizes.encodedBytes)
        ∧ decoded.content = record.content
        ∧ (input.advance sizes.encodedBytes).consumed = input.consumed + sizes.encodedBytes)
    ∧ (∀ (env : Environment) (expected : DecodeContext) (input p' : Parser) (origin : Nat)
        (boundary : InputBoundary) (decoded : Record),
        decodeRecord env policy expected input origin boundary = (.ok decoded, p') →
      ∃ count, p' = input.advance count ∧ p'.consumed = input.consumed + count
        ∧ (∀ (encoder : EncodeEnvironment) (written : Nat) (buffer : Buffer),
            encodeRecord encoder policy decoded written = .ok buffer →
            buffer.bytes = input.rest.take count)
        ∧ ∀ (encoder : EncodeEnvironment) (written width : Nat), encoder.leave = .free →
            written + count ≤ u64Max →
            chooseShape encoder policy count ⟨written, .bodyBytes⟩ = .ok width →
            ∃ buffer, encodeRecord encoder policy decoded written = .ok buffer)
    ∧ ∀ (env : Environment) (expected : DecodeContext) (input : Parser) (origin : Nat)
        (boundary : InputBoundary) (e : CodecError),
        (decodeRecord env policy expected input origin boundary).1 = .error e →
        (decodeRecord env policy expected input origin boundary).2 = input := by
  refine ⟨?_, ?_, ?_⟩
  · intro record sizes encoder written buffer hmade hsizes hencoded input expected origin boundary hbegins
      hfits hdepth hlogical hcount htimestamp hheaders hfragments hcost
    obtain ⟨hwithin, rfl⟩ := recordEncodedSize_eq_ok.mp hsizes
    obtain ⟨hpayloads, hvalues⟩ := hwithin.payloads
    have hbytes := (encodeRecord_bytes hencoded).2
    have hwork : 128 ≤ policy.config.maxWorkBytes ∧ 64 ≤ policy.config.maxWorkItems := by
      unfold encodeRecord at hencoded
      simp only [bind_eq_ok, pass_eq_ok, require_eq_ok, exists_const] at hencoded
      exact hencoded.2.1
    rw [hbytes] at hbegins
    have hfew : record.content.headers.length = record.headers.length := by
      rw [record.content_headers, List.length_map]
    have haccepts : Accepts (fun _ => Mode.buffers) policy expected input origin record.content :=
      ⟨hfits, by omega, ⟨hcount, hwork⟩, hdepth, hbegins,
        ⟨hwithin.attributes, htimestamp, hlogical, hpayloads, hvalues,
          Nat.le_min.mpr ⟨hwithin.headers, hfew ▸ hheaders⟩, hwithin.names, hwithin.payload⟩,
        hwithin.total, hfragments, hcost⟩
    have hdecoded := (@decodeRecordImpl_eq_ok _ (fun _ => Mode.buffers) policy expected boundary input _
      origin _).mpr ⟨record.content, haccepts, rfl, rfl⟩
    refine ⟨_, decodeRecord_eq_ok.mpr ⟨_, hdecoded, rfl⟩, ?_, Parser.advance_consumed hbegins.length_le⟩
    rw [Shape.record_content]
    exact placeAt_denotes hbegins Mode.buffers_denotes
  · intro env expected input p' origin boundary decoded h
    obtain ⟨haccepts, rfl⟩ := decodeRecord_free_eq_ok h
    refine ⟨_, rfl, Parser.advance_consumed haccepts.spelled.length_le, ?_, ?_⟩
    · intro encoder written buffer hencoded
      rw [(encodeRecord_bytes hencoded).2, haccepts.spelled.take]
    · intro encoder written width hleave hwritten hshape
      exact encodeRecord_succeeds hleave haccepts.limits.2 haccepts.within hwritten hshape
  · intro env expected input origin boundary e h
    refine @decodeRecordImpl_error _ env (fun _ => Mode.buffers) policy expected boundary input origin e ?_
    unfold decodeRecord at h
    dsimp only at h
    cases hresult : (decodeRecordImpl env (fun _ => Mode.buffers) policy expected input origin boundary).1 with
    | error e' =>
      rw [hresult] at h
      cases h
      rfl
    | ok shape =>
      rw [hresult] at h
      cases h

/-- A record with a key of one byte. -/
def exampleRecord : Record := ⟨{}, some ⟨[[7]], by decide⟩, none, []⟩

/-- An encoder that is granted everything. -/
def exampleEncoder : EncodeEnvironment := ⟨.free, 1024, fun _ _ => true⟩

/-- Its encoding, in two fragments. -/
def exampleInput : Parser := Parser.start ⟨[[7, 0, 0], [0, 2, 7, 1, 0]], by decide⟩

theorem exampleRecord_canonical :
    ∃ buffer decoded, encodeRecord exampleEncoder {} exampleRecord 0 = .ok buffer
      ∧ decodeRecord .free {} ⟨0, 1, 0⟩ exampleInput 0 .unfinished = (.ok decoded, exampleInput.advance 8)
      ∧ decoded.content = exampleRecord.content := by
  have hencoded : encodeRecord exampleEncoder {} exampleRecord 0
      = .ok ⟨[[7, 0, 0, 0, 2, 7, 1, 0]], by decide⟩ := by rfl
  obtain ⟨decoded, hdecoded, hcontent, _⟩ := (record_codec_canonical {}).1 exampleRecord ⟨7, 8, 0⟩
    exampleEncoder 0 _ rfl rfl hencoded exampleInput ⟨0, 1, 0⟩ 0 .unfinished ⟨[], rfl⟩ (by decide)
    (by decide) (by decide) (by decide) (by decide) (by decide) (by decide +kernel) (by decide +kernel)
  exact ⟨_, decoded, hencoded, hdecoded, hcontent⟩

/-- Two limits of a policy that a record says nothing about: records of a batch, and fragments. A record
    within the policy, in its place in the batch, is refused by either. -/
theorem record_refused_by_limits :
    (makeRecord exampleRecord {} = .ok exampleRecord
      ∧ exampleRecord.fields.logicalDelta.toNat < 5000
      ∧ Representable 0 exampleRecord.fields.timestampDelta
      ∧ encodeRecord exampleEncoder {} exampleRecord 0 = .ok ⟨[[7, 0, 0, 0, 2, 7, 1, 0]], by decide⟩
      ∧ (decodeRecord .free {} ⟨0, 5000, 0⟩ exampleInput 0 .unfinished).1
        = .error ⟨.resourceExhausted, .bodyBytes, 0⟩)
    ∧ (makeRecord exampleRecord { config := { maxBufferFragments := 1 } } = .ok exampleRecord
      ∧ encodeRecord exampleEncoder { config := { maxBufferFragments := 1 } } exampleRecord 0
        = .ok ⟨[[7, 0, 0, 0, 2, 7, 1, 0]], by decide⟩
      ∧ (decodeRecord .free { config := { maxBufferFragments := 1 } } ⟨0, 1, 0⟩ exampleInput 0
          .unfinished).1 = .error ⟨.resourceExhausted, .bodyBytes, 1⟩) := by
  refine ⟨⟨rfl, by decide, by decide, rfl, rfl⟩, rfl, rfl, rfl⟩

end KwaqueStorage.Records
