import KwaqueStorage.Records.Integers

/-!
# A record on the wire

What a record says, apart from how its payloads are cut into fragments, and the one way to spell it: a
length, a byte of attributes, the differences, the key, the value and the headers. The accounting of
`Size` never looks at these bytes; `recordEncodedSize_eq_ok` says that it counts them, and that a policy
admits a record exactly when what the record says is within the policy.
-/

namespace KwaqueStorage.Records

open Extent (u64Max)
open Layout Lib

/-- A record over some kind of payload: buffers, bytes, or ranges of a region. -/
structure Shape (α : Type) where
  fields : RecordFields
  key : Option α
  value : Option α
  headers : List (α × Option α)
  deriving DecidableEq

/-- The same record over another kind of payload. -/
def Shape.map {α β : Type} (f : α → β) (shape : Shape α) : Shape β where
  fields := shape.fields
  key := shape.key.map f
  value := shape.value.map f
  headers := shape.headers.map fun header => (f header.1, header.2.map f)

/-- What a record says. -/
abbrev Content : Type := Shape (List UInt8)

/-- A record, as a shape. -/
def Record.shape (record : Record) : Shape Buffer where
  fields := record.fields
  key := record.key
  value := record.value
  headers := record.headers.map fun header => (header.name, header.value)

/-- A shape over buffers, as a record. -/
def Shape.record (shape : Shape Buffer) : Record where
  fields := shape.fields
  key := shape.key
  value := shape.value
  headers := shape.headers.map fun header => ⟨header.1, header.2⟩

/-- What a record says: two records are equal when they say the same, `records_equal`. -/
def Record.content (record : Record) : Content := record.shape.map Buffer.bytes

theorem Shape.record_content (shape : Shape Buffer) : shape.record.content = shape.map Buffer.bytes := by
  unfold Record.content Record.shape Shape.record
  dsimp only
  rw [List.map_map]
  congr
  exact List.map_id _

/-! ## Spelling -/

/-- The bytes of a payload that may be absent, behind its length. -/
def spellNullable (payload : Option (List UInt8)) : List UInt8 :=
  spellLength (payload.map List.length) ++ payload.getD []

/-- The bytes of a header. -/
def spellHeader (header : List UInt8 × Option (List UInt8)) : List UInt8 :=
  spellVaruint header.1.length ++ (header.1 ++ spellNullable header.2)

/-- The bytes of headers, in order. -/
def spellHeaders (headers : List (List UInt8 × Option (List UInt8))) : List UInt8 :=
  headers.flatMap spellHeader

/-- The bytes of a record behind its length. -/
def spellBody (content : Content) : List UInt8 :=
  [content.fields.attributes] ++ (spellVarint content.fields.timestampDelta.toInt
    ++ (spellVaruint content.fields.logicalDelta.toNat
      ++ (spellNullable content.key ++ (spellNullable content.value
        ++ (spellVaruint content.headers.length ++ spellHeaders content.headers)))))

/-- The bytes of a record. -/
def spell (content : Content) : List UInt8 :=
  spellVaruint (spellBody content).length ++ spellBody content

/-- The payload bytes of a header. -/
def headerBytes (header : List UInt8 × Option (List UInt8)) : Nat :=
  header.1.length + header.2.elim 0 List.length

/-- The payload bytes of headers. -/
def headersBytes (headers : List (List UInt8 × Option (List UInt8))) : Nat :=
  (headers.map headerBytes).sum

theorem spellLength_length {payload : Option (List UInt8)} :
    (spellLength (payload.map List.length)).length
      = unsignedSize (encodeZigzag (payload.elim (-1) fun octets => (octets.length : Int))) := by
  unfold spellLength spellVarint
  rw [spellVaruint_length]
  cases payload with
  | none => rfl
  | some octets => rfl

theorem spellNullable_pos {payload : Option (List UInt8)} : 0 < (spellNullable payload).length := by
  unfold spellNullable
  rw [List.length_append, spellLength_length]
  exact Nat.add_pos_left unsignedSize_pos _

/-- A header takes two bytes at least, whatever it holds. -/
theorem two_le_spellHeader {header : List UInt8 × Option (List UInt8)} : 2 ≤ (spellHeader header).length := by
  have hname : 0 < (spellVaruint header.1.length).length := by
    rw [spellVaruint_length]
    exact unsignedSize_pos
  have hvalue := @spellNullable_pos header.2
  unfold spellHeader
  rw [List.length_append, List.length_append]
  omega

theorem two_mul_le_spellHeaders {headers : List (List UInt8 × Option (List UInt8))} :
    2 * headers.length ≤ (spellHeaders headers).length := by
  induction headers with
  | nil => exact Nat.le_refl _
  | cons header rest ih =>
    have hheader := @two_le_spellHeader header
    unfold spellHeaders at ih ⊢
    rw [List.flatMap_cons, List.length_append, List.length_cons]
    omega

/-- A record behind its length takes six bytes at least, one for each part. -/
theorem six_le_spellBody {content : Content} : 6 ≤ (spellBody content).length := by
  have htimestamp : 0 < (spellVarint content.fields.timestampDelta.toInt).length := by
    unfold spellVarint
    rw [spellVaruint_length]
    exact unsignedSize_pos
  have hlogical : 0 < (spellVaruint content.fields.logicalDelta.toNat).length := by
    rw [spellVaruint_length]
    exact unsignedSize_pos
  have hcount : 0 < (spellVaruint content.headers.length).length := by
    rw [spellVaruint_length]
    exact unsignedSize_pos
  have hkey := @spellNullable_pos content.key
  have hvalue := @spellNullable_pos content.value
  unfold spellBody
  simp only [List.length_append, List.length_singleton]
  omega

/-! ## The accounting counts the spelling -/

/-- What a record says is within a policy. -/
structure Within (policy : Limits) (content : Content) : Prop where
  attributes : content.fields.attributes = 0
  headers : content.headers.length ≤ policy.config.maxRecordHeaders
  names : ∀ header ∈ content.headers, header.1.length ≤ policy.config.maxHeaderNameBytes
  payload : headersBytes content.headers ≤ policy.config.maxRecordHeaderBytes
  total : (spell content).length ≤ policy.config.maxRecordBytes

/-- What a header says. -/
def RecordHeader.content (header : RecordHeader) : List UInt8 × Option (List UInt8) :=
  (header.name.bytes, header.value.map Buffer.bytes)

theorem Record.content_headers (record : Record) :
    record.content.headers = record.headers.map RecordHeader.content := by
  unfold Record.content Record.shape Shape.map
  dsimp only
  rw [List.map_map]
  rfl

theorem visibleSize_eq {value : Option Buffer} :
    visibleSize value = (value.map Buffer.bytes).elim 0 List.length := by
  cases value with
  | none => rfl
  | some buffer => rfl

theorem nullableEncodedSize_eq_ok {value : Option Buffer} {size : Nat} :
    nullableEncodedSize value = .ok size
      ↔ visibleSize value ≤ 2147483647 ∧ size = (spellNullable (value.map Buffer.bytes)).length := by
  have hlength : unsignedSize (encodeZigzag (lengthOf value)) + visibleSize value
      = (spellNullable (value.map Buffer.bytes)).length := by
    unfold spellNullable
    rw [List.length_append, spellLength_length]
    cases value with
    | none => rfl
    | some buffer => rfl
  unfold nullableEncodedSize
  simp only [bind_eq_ok, require_eq_ok, exists_const, pure_eq_ok, hlength]
  exact and_congr_right fun _ => eq_comm

/-- The parts before the headers. -/
theorem initialSize_eq_ok {fields : RecordFields} {key value : Option Buffer} {count : Nat}
    {policy : Limits} {size : RecordSizes} :
    initialSize fields key value count policy = .ok size
      ↔ fields.attributes = 0 ∧ count ≤ policy.config.maxRecordHeaders
        ∧ visibleSize key ≤ 2147483647 ∧ visibleSize value ≤ 2147483647
        ∧ size = { bodyBytes := 1 + (spellVarint fields.timestampDelta.toInt).length
                    + (spellVaruint fields.logicalDelta.toNat).length + (spellVaruint count).length
                    + (spellNullable (key.map Buffer.bytes)).length
                    + (spellNullable (value.map Buffer.bytes)).length }
        ∧ size.bodyBytes ≤ u64Max := by
  unfold initialSize spellVarint
  simp only [bind_eq_ok, require_eq_ok, exists_const, pure_eq_ok, nullableEncodedSize_eq_ok, addOr_eq_ok,
    spellVaruint_length]
  constructor
  · rintro ⟨hattributes, hcount, _, ⟨hkey, rfl⟩, _, ⟨hvalue, rfl⟩, _, ⟨rfl, _⟩, _, ⟨rfl, hfits⟩, rfl⟩
    exact ⟨hattributes, hcount, hkey, hvalue, rfl, hfits⟩
  · rintro ⟨hattributes, hcount, hkey, hvalue, rfl, hfits⟩
    dsimp only at hfits
    exact ⟨hattributes, hcount, _, ⟨hkey, rfl⟩, _, ⟨hvalue, rfl⟩, _, ⟨rfl, by omega⟩, _, ⟨rfl, hfits⟩, rfl⟩

/-- One header on top of others. -/
theorem addHeaderSize_eq_ok {size size' : RecordSizes} {header : RecordHeader} {policy : Limits} :
    addHeaderSize size header policy = .ok size'
      ↔ header.name.size ≤ policy.config.maxHeaderNameBytes
        ∧ size.headerPayloadBytes + headerBytes header.content ≤ policy.config.maxRecordHeaderBytes
        ∧ visibleSize header.value ≤ 2147483647
        ∧ size' = { size with bodyBytes := size.bodyBytes + (spellHeader header.content).length,
                              headerPayloadBytes := size.headerPayloadBytes + headerBytes header.content }
        ∧ size'.bodyBytes ≤ u64Max := by
  have hbytes : headerBytes header.content = header.name.size + visibleSize header.value := by
    rw [visibleSize_eq]
    rfl
  have hspell : (spellHeader header.content).length = unsignedSize header.name.size
      + (header.name.size + (spellNullable (header.value.map Buffer.bytes)).length) := by
    unfold spellHeader RecordHeader.content
    rw [List.length_append, List.length_append, spellVaruint_length]
    rfl
  have hmost := policy.maxRecordHeaderBytes_le
  unfold addHeaderSize headerPayloadSize
  simp only [bind_eq_ok, require_eq_ok, exists_const, pure_eq_ok, nullableEncodedSize_eq_ok, addOr_eq_ok,
    hbytes, hspell]
  constructor
  · rintro ⟨_, ⟨hname, _, ⟨rfl, _⟩, _, rfl⟩, _, ⟨rfl, _⟩, hpayload, _, ⟨hvalue, rfl⟩, _, ⟨rfl, _⟩, _,
      ⟨rfl, _⟩, _, ⟨rfl, hfits⟩, rfl⟩
    refine ⟨hname, hpayload, hvalue, ?_, ?_⟩
    · congr 1
      omega
    · exact hfits
  · rintro ⟨hname, hpayload, hvalue, rfl, hfits⟩
    dsimp only at hfits
    refine ⟨_, ⟨hname, _, ⟨rfl, ?_⟩, ?_, rfl⟩, _, ⟨rfl, ?_⟩, hpayload, _, ⟨hvalue, rfl⟩, _, ⟨rfl, ?_⟩, _,
      ⟨rfl, ?_⟩, _, ⟨rfl, ?_⟩, ?_⟩
    · unfold u64Max
      omega
    · omega
    · unfold u64Max
      omega
    · omega
    · omega
    · omega
    · congr 1
      omega

/-- The headers, on top of the parts before them. -/
theorem addHeaderSizes_eq_ok {size size' : RecordSizes} {headers : List RecordHeader} {policy : Limits}
    (hpayload : size.headerPayloadBytes ≤ policy.config.maxRecordHeaderBytes)
    (hbody : size.bodyBytes ≤ u64Max) :
    addHeaderSizes policy size headers = .ok size'
      ↔ (∀ header ∈ headers, header.name.size ≤ policy.config.maxHeaderNameBytes
          ∧ visibleSize header.value ≤ 2147483647)
        ∧ size.headerPayloadBytes + headersBytes (headers.map RecordHeader.content)
          ≤ policy.config.maxRecordHeaderBytes
        ∧ size' = { size with
                    bodyBytes := size.bodyBytes
                      + (spellHeaders (headers.map RecordHeader.content)).length,
                    headerPayloadBytes := size.headerPayloadBytes
                      + headersBytes (headers.map RecordHeader.content) }
        ∧ size'.bodyBytes ≤ u64Max := by
  induction headers generalizing size with
  | nil =>
    constructor
    · intro h
      cases h
      exact ⟨nofun, hpayload, rfl, hbody⟩
    · rintro ⟨_, _, rfl, _⟩
      rfl
  | cons header rest ih =>
    have hbytes : headersBytes ((header :: rest).map RecordHeader.content)
        = headerBytes header.content + headersBytes (rest.map RecordHeader.content) := rfl
    have hspell : (spellHeaders ((header :: rest).map RecordHeader.content)).length
        = (spellHeader header.content).length
          + (spellHeaders (rest.map RecordHeader.content)).length := by
      unfold spellHeaders
      rw [List.map_cons, List.flatMap_cons, List.length_append]
    rw [hbytes, hspell, List.forall_mem_cons]
    unfold addHeaderSizes
    simp only [bind_eq_ok, addHeaderSize_eq_ok]
    constructor
    · rintro ⟨_, ⟨hname, hmore, hvalue, rfl, hfits⟩, h⟩
      obtain ⟨hrest, htotal, rfl, hlast⟩ := (ih hmore hfits).mp h
      dsimp only at htotal hlast
      refine ⟨⟨⟨hname, hvalue⟩, hrest⟩, by omega, ?_, by dsimp only; omega⟩
      dsimp only
      congr 1 <;> omega
    · rintro ⟨⟨⟨hname, hvalue⟩, hrest⟩, htotal, rfl, hlast⟩
      dsimp only at hlast
      refine ⟨_, ⟨hname, by omega, hvalue, rfl, by dsimp only; omega⟩, ?_⟩
      refine (ih (by dsimp only; omega) (by dsimp only; omega)).mpr ⟨hrest, by dsimp only; omega, ?_, ?_⟩
      · dsimp only
        congr 1 <;> omega
      · exact hlast

theorem spellNullable_le {payload : Option (List UInt8)} :
    payload.elim 0 List.length ≤ (spellNullable payload).length := by
  unfold spellNullable
  rw [List.length_append]
  cases payload with
  | none => exact Nat.zero_le _
  | some octets => exact Nat.le_add_left _ _

theorem spellBody_length {content : Content} : (spellBody content).length
    = 1 + (spellVarint content.fields.timestampDelta.toInt).length
      + (spellVaruint content.fields.logicalDelta.toNat).length
      + (spellVaruint content.headers.length).length + (spellNullable content.key).length
      + (spellNullable content.value).length + (spellHeaders content.headers).length := by
  unfold spellBody
  simp only [List.length_append, List.length_singleton]
  omega

theorem spell_length {content : Content} :
    (spell content).length = (spellBody content).length + unsignedSize (spellBody content).length := by
  unfold spell
  rw [List.length_append, spellVaruint_length, Nat.add_comm]

/-- The value of a header takes no more than all headers do. -/
theorem headerBytes_le {headers : List (List UInt8 × Option (List UInt8))}
    {header : List UInt8 × Option (List UInt8)} (hmem : header ∈ headers) :
    headerBytes header ≤ headersBytes headers :=
  List.le_sum_of_mem (List.mem_map_of_mem hmem)

/-- **The accounting counts what is spelled**, and admits a record exactly when what it says is within
    the policy. -/
theorem recordEncodedSize_eq_ok {record : Record} {policy : Limits} {size : RecordSizes} :
    recordEncodedSize record policy = .ok size
      ↔ Within policy record.content
        ∧ size = ⟨(spellBody record.content).length, (spell record.content).length,
            headersBytes record.content.headers⟩ := by
  have hcount : record.content.headers.length = record.headers.length := by
    rw [record.content_headers, List.length_map]
  have hmost := policy.maxRecordBytes_le
  have hheaders := policy.maxRecordHeaderBytes_le
  unfold recordEncodedSize finishSize
  simp only [bind_eq_ok, require_eq_ok, exists_const, pure_eq_ok, addOr_eq_ok]
  have hbody : (spellBody record.content).length
      = 1 + (spellVarint record.fields.timestampDelta.toInt).length
        + (spellVaruint record.fields.logicalDelta.toNat).length
        + (spellVaruint record.headers.length).length
        + (spellNullable (record.key.map Buffer.bytes)).length
        + (spellNullable (record.value.map Buffer.bytes)).length
        + (spellHeaders (record.headers.map RecordHeader.content)).length := by
    rw [spellBody_length, hcount, record.content_headers]
    rfl
  constructor
  · rintro ⟨_, hinitial, _, hadded, hlarge, _, ⟨rfl, _⟩, htotal, rfl⟩
    obtain ⟨hattributes, hfew, _, _, rfl, hfits⟩ := initialSize_eq_ok.mp hinitial
    obtain ⟨hnames, hpayload, rfl, _⟩ := (addHeaderSizes_eq_ok (Nat.zero_le _) hfits).mp hadded
    dsimp only at htotal hpayload
    rw [← hbody] at htotal
    rw [Nat.zero_add] at hpayload
    refine ⟨⟨hattributes, hcount ▸ hfew, ?_, record.content_headers ▸ hpayload, spell_length ▸ htotal⟩, ?_⟩
    · rw [record.content_headers]
      intro header hmem
      obtain ⟨source, hsource, rfl⟩ := List.mem_map.mp hmem
      exact (hnames source hsource).1
    · dsimp only
      rw [spell_length, hbody, record.content_headers, Nat.zero_add]
  · rintro ⟨hwithin, rfl⟩
    have htotal := hwithin.total
    have hpayload := hwithin.payload
    have hnames := hwithin.names
    rw [spell_length] at htotal
    rw [record.content_headers] at hpayload hnames
    have hkey := @spellNullable_le (record.key.map Buffer.bytes)
    have hvalue := @spellNullable_le (record.value.map Buffer.bytes)
    rw [← visibleSize_eq] at hkey hvalue
    have hinitial := (@initialSize_eq_ok record.fields record.key record.value record.headers.length policy
      _).mpr ⟨hwithin.attributes, hcount ▸ hwithin.headers, by omega, by omega, rfl, by
        unfold u64Max
        dsimp only
        omega⟩
    refine ⟨_, hinitial, _, (addHeaderSizes_eq_ok (Nat.zero_le _) ?_).mpr ⟨?_, ?_, rfl, ?_⟩, ?_⟩
    · unfold u64Max
      dsimp only
      omega
    · intro header hmem
      have hheader : headerBytes header.content
          ≤ headersBytes (record.headers.map RecordHeader.content) :=
        headerBytes_le (List.mem_map_of_mem hmem)
      have hpart : visibleSize header.value ≤ headerBytes header.content := by
        rw [visibleSize_eq]
        exact Nat.le_add_left _ _
      exact ⟨hnames _ (List.mem_map_of_mem hmem), by omega⟩
    · rw [Nat.zero_add]
      exact hpayload
    · unfold u64Max
      dsimp only
      omega
    · dsimp only
      rw [← hbody, Nat.zero_add, ← record.content_headers]
      refine ⟨by omega, _, ⟨rfl, ?_⟩, htotal, ?_⟩
      · unfold u64Max
        omega
      · rw [spell_length]

end KwaqueStorage.Records
