import KwaqueStorage.Records.Decode

/-!
# What a decoder accepts

A decoder that is never refused leave accepts a body exactly when the body spells a record within the
policy and the context; what it returns is then what its mode makes of that record, place by place. One
lemma per reader says so, each from those before it. An environment only ever takes away: whatever is
accepted under some environment is accepted, with the same result, under the free one.
-/

namespace KwaqueStorage.Records

open Extent (u64Max)
open Layout Lib

variable {α : Type} {env : Environment} {mode : Mode α} {policy : Limits} {context : FieldContext}

/-! ## The free environment accepts the most -/

theorem pass_eq_ok {gate : Gate} {offset : Nat} {u : Unit} :
    pass env gate context offset = .ok u ↔ env gate = none := by
  unfold pass
  cases env gate with
  | none => exact iff_of_true rfl rfl
  | some code => exact iff_of_false nofun nofun

variable {r : Reading}

theorem materialize_free {length : Nat} {out : α × Reading}
    (h : materialize env mode policy length r context = .ok out) :
    materialize .free mode policy length r context = .ok out := by
  unfold materialize at h ⊢
  simp only [bind_eq_ok, pass_eq_ok, require_eq_ok, exists_const] at h ⊢
  exact ⟨rfl, h.2⟩

theorem readPayload_free {field : RecordField} {length : Option Nat} {out : Option α × Reading}
    (h : readPayload env mode policy field length r context = .ok out) :
    readPayload .free mode policy field length r context = .ok out := by
  cases length with
  | none => exact h
  | some length =>
    unfold readPayload at h ⊢
    simp only [bind_eq_ok] at h ⊢
    obtain ⟨payload, hpayload, h⟩ := h
    exact ⟨payload, materialize_free hpayload, h⟩

theorem readNullable_free {most : Nat} {lengthField valueField : RecordField} {out : Option α × Reading}
    (h : readNullable env mode policy most lengthField valueField r context = .ok out) :
    readNullable .free mode policy most lengthField valueField r context = .ok out := by
  unfold readNullable at h ⊢
  simp only [bind_eq_ok, pass_eq_ok, exists_const] at h ⊢
  obtain ⟨_, length, hlength, h⟩ := h
  exact ⟨rfl, length, hlength, readPayload_free h⟩

theorem readHeader_free {left : Nat} {out : (α × Option α) × Nat × Reading}
    (h : readHeader env mode policy left r context = .ok out) :
    readHeader .free mode policy left r context = .ok out := by
  unfold readHeader at h ⊢
  simp only [bind_eq_ok, pass_eq_ok, require_eq_ok, exists_const] at h ⊢
  obtain ⟨_, length, hlength, hname, hroom, name, hmaterialized, _, value, hvalue, _, h⟩ := h
  exact ⟨rfl, length, hlength, hname, hroom, name, materialize_free hmaterialized, rfl, value,
    readNullable_free hvalue, rfl, h⟩

theorem readHeaders_free {count left : Nat} {out : List (α × Option α) × Reading}
    (h : readHeaders env mode policy count left r context = .ok out) :
    readHeaders .free mode policy count left r context = .ok out := by
  induction count generalizing left r out with
  | zero => exact h
  | succ count ih =>
    unfold readHeaders at h ⊢
    simp only [bind_eq_ok] at h ⊢
    obtain ⟨header, hheader, headers, hheaders, h⟩ := h
    exact ⟨header, readHeader_free hheader, headers, ih hheaders, h⟩

theorem reserveHeaders_free {count offset : Nat} : reserveHeaders .free mode count context offset = .ok () := by
  unfold reserveHeaders
  split
  next => rfl
  next => rfl

variable {expected : DecodeContext}

theorem readFields_free {p : Parser} {out : RecordFields × Parser}
    (h : readFields env expected p context = .ok out) : readFields .free expected p context = .ok out := by
  unfold readFields at h ⊢
  simp only [bind_eq_ok, pass_eq_ok, require_eq_ok, exists_const] at h ⊢
  exact ⟨rfl, h.2⟩

theorem readCounted_free {out : List (α × Option α)}
    (h : readCounted env mode policy expected r context = .ok out) :
    readCounted .free mode policy expected r context = .ok out := by
  unfold readCounted at h ⊢
  simp only [bind_eq_ok, pass_eq_ok, require_eq_ok, exists_const] at h ⊢
  obtain ⟨_, count, hcount, hmost, hroom, _, _, headers, hheaders, hend, _, h⟩ := h
  exact ⟨rfl, count, hcount, hmost, hroom, (), reserveHeaders_free, headers, readHeaders_free hheaders,
    hend, rfl, h⟩

theorem readBody_free {p : Parser} {out : Shape α} (h : readBody env mode policy expected p context = .ok out) :
    readBody .free mode policy expected p context = .ok out := by
  unfold readBody at h ⊢
  simp only [bind_eq_ok] at h ⊢
  obtain ⟨fields, hfields, key, hkey, value, hvalue, headers, hheaders, h⟩ := h
  exact ⟨fields, readFields_free hfields, key, readNullable_free hkey, value, readNullable_free hvalue,
    headers, readCounted_free hheaders, h⟩

/-! ## What a mode makes of a record -/

/-- A payload behind its length, as a mode takes it. -/
def placeNullable (mode : Mode α) (p : Parser) (payload : Option (List UInt8)) : Option α :=
  payload.map fun octets => mode.value (p.advance (spellLength (some octets.length)).length) octets.length

/-- The fragments that a payload behind its length is charged. -/
def costNullable (mode : Mode α) (p : Parser) (payload : Option (List UInt8)) : Nat :=
  payload.elim 0 fun octets =>
    mode.cost (p.advance (spellLength (some octets.length)).length) octets.length

/-- A header, as a mode takes it. -/
def placeHeader (mode : Mode α) (p : Parser) (header : List UInt8 × Option (List UInt8)) : α × Option α :=
  let name := p.advance (spellVaruint header.1.length).length
  (mode.value name header.1.length, placeNullable mode (name.advance header.1.length) header.2)

/-- The fragments that a header is charged. -/
def costHeader (mode : Mode α) (p : Parser) (header : List UInt8 × Option (List UInt8)) : Nat :=
  let name := p.advance (spellVaruint header.1.length).length
  mode.cost name header.1.length + costNullable mode (name.advance header.1.length) header.2

/-- Headers, as a mode takes them. -/
def placeHeaders (mode : Mode α) : Parser → List (List UInt8 × Option (List UInt8)) → List (α × Option α)
  | _, [] => []
  | p, header :: rest =>
    placeHeader mode p header :: placeHeaders mode (p.advance (spellHeader header).length) rest

/-- The fragments that headers are charged. -/
def costHeaders (mode : Mode α) : Parser → List (List UInt8 × Option (List UInt8)) → Nat
  | _, [] => 0
  | p, header :: rest =>
    costHeader mode p header + costHeaders mode (p.advance (spellHeader header).length) rest

/-- What stands before the key. -/
def beforeKey (fields : RecordFields) : List UInt8 :=
  [fields.attributes] ++ (spellVarint fields.timestampDelta.toInt ++ spellVaruint fields.logicalDelta.toNat)

/-- A body, as a mode takes it. -/
def placeBody (mode : Mode α) (p : Parser) (content : Content) : Shape α :=
  let key := p.advance (beforeKey content.fields).length
  let value := key.advance (spellNullable content.key).length
  let count := value.advance (spellNullable content.value).length
  ⟨content.fields, placeNullable mode key content.key, placeNullable mode value content.value,
    placeHeaders mode (count.advance (spellVaruint content.headers.length).length) content.headers⟩

/-- The fragments that the payloads of a body are charged. -/
def costBody (mode : Mode α) (p : Parser) (content : Content) : Nat :=
  let key := p.advance (beforeKey content.fields).length
  let value := key.advance (spellNullable content.key).length
  let count := value.advance (spellNullable content.value).length
  costNullable mode key content.key + costNullable mode value content.value
    + costHeaders mode (count.advance (spellVaruint content.headers.length).length) content.headers

/-- What a body has to be to be accepted: within the policy, and in its place in the batch. -/
structure Decodable (policy : Limits) (expected : DecodeContext) (content : Content) : Prop where
  attributes : content.fields.attributes = 0
  timestamp : Representable expected.timestampBase content.fields.timestampDelta
  logical : content.fields.logicalDelta.toNat < expected.originalCount
  key : ∀ octets ∈ content.key, octets.length ≤ policy.config.maxRecordBytes
  value : ∀ octets ∈ content.value, octets.length ≤ policy.config.maxRecordBytes
  headers : content.headers.length ≤ min policy.config.maxRecordHeaders
    (min policy.config.maxBatchHeaders expected.headersRemaining)
  names : ∀ header ∈ content.headers, header.1.length ≤ policy.config.maxHeaderNameBytes
  payload : headersBytes content.headers ≤ policy.config.maxRecordHeaderBytes

/-! ## One lemma per reader -/

theorem spellNullable_some {octets : List UInt8} :
    spellNullable (some octets) = spellLength (some octets.length) ++ octets := rfl

theorem spellNullable_none : spellNullable none = spellLength none := List.append_nil _

theorem materialize_eq_ok {length : Nat} {r r' : Reading} {payload : α} :
    materialize .free mode policy length r context = .ok (payload, r')
      ↔ r.fragments + mode.cost r.parser length ≤ policy.config.maxBufferFragments
        ∧ payload = mode.value r.parser length
        ∧ r' = ⟨r.parser.advance length, r.fragments + mode.cost r.parser length⟩ := by
  unfold materialize
  simp only [bind_eq_ok, pass_eq_ok, require_eq_ok, exists_const, pure_eq_ok, Prod.mk.injEq]
  constructor
  · rintro ⟨_, hcost, rfl, rfl⟩
    exact ⟨hcost, rfl, rfl⟩
  · rintro ⟨hcost, rfl, rfl⟩
    exact ⟨rfl, hcost, rfl, rfl⟩

theorem readNullable_eq_ok {most : Nat} {lengthField valueField : RecordField} {r r' : Reading}
    {out : Option α} (hfits : context.origin + r.parser.total ≤ u64Max) (hmost : most < 2147483648)
    (hspent : r.fragments ≤ policy.config.maxBufferFragments) :
    readNullable .free mode policy most lengthField valueField r context = .ok (out, r')
      ↔ ∃ payload, r.parser.Begins (spellNullable payload) ∧ (∀ octets ∈ payload, octets.length ≤ most)
        ∧ out = placeNullable mode r.parser payload
        ∧ r' = ⟨r.parser.advance (spellNullable payload).length,
            r.fragments + costNullable mode r.parser payload⟩
        ∧ r'.fragments ≤ policy.config.maxBufferFragments := by
  unfold readNullable
  simp only [bind_eq_ok, pass_eq_ok, exists_const, Prod.exists, readNullableLength_eq_ok hmost]
  constructor
  · rintro ⟨_, length, p, ⟨_, hbegins, rfl, hroom⟩, h⟩
    cases length with
    | none =>
      cases h
      refine ⟨none, ?_, nofun, rfl, ?_, hspent⟩
      · rw [spellNullable_none]
        exact hbegins
      · rw [spellNullable_none]
        rfl
    | some length =>
      obtain ⟨hle, hrest⟩ := hroom length rfl
      unfold readPayload at h
      simp only [bind_eq_ok, Prod.exists, materialize_eq_ok, pure_eq_ok, Prod.mk.injEq] at h
      obtain ⟨_, _, ⟨hcost, rfl, rfl⟩, rfl, rfl⟩ := h
      obtain ⟨octets, rfl, hoctets⟩ := Parser.begins_take hrest
      have hboth : r.parser.Begins (spellNullable (some octets)) := by
        rw [spellNullable_some]
        exact Parser.begins_append.mpr ⟨hbegins, hoctets⟩
      refine ⟨some octets, hboth, ?_, rfl, ?_, hcost⟩
      · intro other hother
        cases hother
        exact hle
      · have hlength := hboth.length_le
        rw [spellNullable_some, List.length_append] at hlength ⊢
        rw [Parser.advance_advance hlength]
        rfl
  · rintro ⟨payload, hbegins, hle, rfl, rfl, hcost⟩
    cases payload with
    | none =>
      rw [spellNullable_none] at hbegins ⊢
      exact ⟨rfl, none, _, ⟨hfits, hbegins, rfl, nofun⟩, rfl⟩
    | some octets =>
      have hlength := hbegins.length_le
      rw [spellNullable_some] at hbegins hlength ⊢
      rw [List.length_append] at hlength ⊢
      obtain ⟨hfirst, hsecond⟩ := Parser.begins_append.mp hbegins
      refine ⟨rfl, some octets.length, _, ⟨hfits, hfirst, rfl, ?_⟩, ?_⟩
      · intro n hn
        cases hn
        exact ⟨hle octets rfl, hsecond.length_le⟩
      · unfold readPayload
        simp only [bind_eq_ok, Prod.exists, materialize_eq_ok, pure_eq_ok, Prod.mk.injEq]
        refine ⟨_, _, ⟨hcost, rfl, rfl⟩, rfl, ?_⟩
        rw [Parser.advance_advance hlength]
        rfl

/-- What a payload behind its length takes, once it is placed. -/
theorem placeNullable_size {p : Parser} {payload : Option (List UInt8)}
    (h : p.Begins (spellNullable payload)) :
    (placeNullable mode p payload).elim 0 mode.size = payload.elim 0 List.length := by
  cases payload with
  | none => rfl
  | some octets =>
    rw [spellNullable_some] at h
    exact mode.size_value (Parser.begins_append.mp h).2.length_le

/-- Past the parts of a header is past the header. -/
theorem advance_spellHeader {p : Parser} {header : List UInt8 × Option (List UInt8)}
    (h : p.Begins (spellHeader header)) :
    ((p.advance (spellVaruint header.1.length).length).advance header.1.length).advance
      (spellNullable header.2).length = p.advance (spellHeader header).length := by
  have hlength := h.length_le
  unfold spellHeader at hlength ⊢
  rw [List.length_append, List.length_append] at hlength ⊢
  rw [@Parser.advance_advance p _ _ (by omega), Parser.advance_advance (by omega), Nat.add_assoc]

theorem readHeader_eq_ok {left left' : Nat} {r r' : Reading} {out : α × Option α}
    (hfits : context.origin + r.parser.total ≤ u64Max) (hleft : left < 2147483648) :
    readHeader .free mode policy left r context = .ok (out, left', r')
      ↔ ∃ header, r.parser.Begins (spellHeader header)
        ∧ header.1.length ≤ policy.config.maxHeaderNameBytes ∧ headerBytes header ≤ left
        ∧ out = placeHeader mode r.parser header ∧ left' = left - headerBytes header
        ∧ r' = ⟨r.parser.advance (spellHeader header).length,
            r.fragments + costHeader mode r.parser header⟩
        ∧ r'.fragments ≤ policy.config.maxBufferFragments := by
  unfold readHeader
  simp only [bind_eq_ok, pass_eq_ok, require_eq_ok, exists_const, Prod.exists, pure_eq_ok,
    readVaruint_eq_ok (.inl rfl), materialize_eq_ok, Nat.le_min, Parser.remaining_eq, Prod.mk.injEq]
  constructor
  · rintro ⟨_, length, p, ⟨_, _, hbegins, rfl⟩, ⟨hname, hle⟩, hroom, name, _, ⟨hcost, rfl, rfl⟩, _, value,
      _, h, _, rfl, rfl, rfl⟩
    obtain ⟨octets, rfl, hoctets⟩ := Parser.begins_take hroom
    rw [readNullable_eq_ok (by simpa only [Parser.advance_total] using hfits) (by omega) hcost] at h
    obtain ⟨payload, hpayload, hvalue, rfl, rfl, hmore⟩ := h
    have hall : r.parser.Begins (spellHeader (octets, payload)) :=
      Parser.begins_append.mpr ⟨hbegins, Parser.begins_append.mpr ⟨hoctets, hpayload⟩⟩
    have hbytes : headerBytes (octets, payload) ≤ left := by
      unfold headerBytes
      cases payload with
      | none => exact hle
      | some value =>
        have hsecond := hvalue value rfl
        dsimp only [Option.elim]
        omega
    refine ⟨octets, payload, hall, hname, hbytes, rfl, ?_, ?_, ?_⟩
    · rw [placeNullable_size hpayload, Nat.sub_sub]
      rfl
    · dsimp only
      rw [advance_spellHeader hall, Nat.add_assoc]
      rfl
    · exact hmore
  · rintro ⟨octets, payload, hall, hname, hbytes, rfl, rfl, rfl, hmore⟩
    obtain ⟨hbegins, hrest⟩ := Parser.begins_append.mp hall
    obtain ⟨hoctets, hpayload⟩ := Parser.begins_append.mp hrest
    dsimp only at hname hbegins hoctets hpayload
    unfold headerBytes at hbytes
    dsimp only at hbytes
    have hcost : r.fragments + (mode.cost (r.parser.advance (spellVaruint octets.length).length) octets.length
        + costNullable mode ((r.parser.advance (spellVaruint octets.length).length).advance octets.length)
          payload) ≤ policy.config.maxBufferFragments := hmore
    refine ⟨rfl, octets.length, _, ⟨hfits, by omega, hbegins, rfl⟩, ⟨hname, by omega⟩, hoctets.length_le, _,
      _, ⟨by omega, rfl, rfl⟩, rfl, _, _, ?_, rfl, rfl, ?_, rfl⟩
    · rw [readNullable_eq_ok (by simpa only [Parser.advance_total] using hfits) (by omega)
        (by dsimp only; omega)]
      refine ⟨payload, hpayload, ?_, rfl, ?_, hmore⟩
      · rintro value rfl
        dsimp only [Option.elim] at hbytes
        omega
      · dsimp only
        rw [advance_spellHeader hall, Nat.add_assoc]
        rfl
    · change left - octets.length - (placeNullable mode _ payload).elim 0 mode.size = _
      rw [placeNullable_size hpayload, Nat.sub_sub]
      rfl

/-- The loop over headers, from a cursor on: by induction on how many are left. -/
theorem readHeaders_eq_ok {count left : Nat} {r r' : Reading} {out : List (α × Option α)}
    (hfits : context.origin + r.parser.total ≤ u64Max) (hleft : left < 2147483648)
    (hspent : r.fragments ≤ policy.config.maxBufferFragments) :
    readHeaders .free mode policy count left r context = .ok (out, r')
      ↔ ∃ headers : List (List UInt8 × Option (List UInt8)), headers.length = count
        ∧ r.parser.Begins (spellHeaders headers)
        ∧ (∀ header ∈ headers, header.1.length ≤ policy.config.maxHeaderNameBytes)
        ∧ headersBytes headers ≤ left ∧ out = placeHeaders mode r.parser headers
        ∧ r' = ⟨r.parser.advance (spellHeaders headers).length,
            r.fragments + costHeaders mode r.parser headers⟩
        ∧ r'.fragments ≤ policy.config.maxBufferFragments := by
  induction count generalizing left r out with
  | zero =>
    constructor
    · intro h
      cases h
      refine ⟨[], rfl, List.nil_prefix, nofun, Nat.zero_le _, rfl, ?_, hspent⟩
      rw [show (spellHeaders []).length = 0 from rfl, Parser.advance_zero]
      rfl
    · rintro ⟨headers, hcount, _, _, _, rfl, rfl, _⟩
      obtain rfl := List.length_eq_zero_iff.mp hcount
      rw [show (spellHeaders []).length = 0 from rfl, Parser.advance_zero]
      rfl
  | succ count ih =>
    unfold readHeaders
    simp only [bind_eq_ok, Prod.exists, pure_eq_ok, Prod.mk.injEq, readHeader_eq_ok hfits hleft]
    constructor
    · rintro ⟨name, value, left', r₁, ⟨octets, payload, hbegins, hname, hbytes, hout, rfl, rfl, hcost⟩, more, _,
        h, rfl, rfl⟩
      rw [ih (by simpa only [Parser.advance_total] using hfits) (by omega) hcost] at h
      obtain ⟨headers, rfl, hrest, hnames, htotal, rfl, rfl, hmore⟩ := h
      have hall : r.parser.Begins (spellHeaders ((octets, payload) :: headers)) :=
        Parser.begins_append.mpr ⟨hbegins, hrest⟩
      refine ⟨(octets, payload) :: headers, rfl, hall, List.forall_mem_cons.mpr ⟨hname, hnames⟩, ?_, ?_, ?_, hmore⟩
      · change headerBytes (octets, payload) + headersBytes headers ≤ left
        omega
      · rw [hout]
        rfl
      · have hlength := hall.length_le
        unfold spellHeaders at hlength ⊢
        rw [List.flatMap_cons, List.length_append] at hlength ⊢
        rw [Parser.advance_advance hlength, Nat.add_assoc]
        rfl
    · rintro ⟨headers, hcount, hall, hnames, hbytes, rfl, rfl, hmore⟩
      cases headers with
      | nil => cases hcount
      | cons header headers =>
        obtain ⟨octets, payload⟩ := header
        obtain ⟨hbegins, hrest⟩ := Parser.begins_append.mp hall
        obtain ⟨hname, hnames⟩ := List.forall_mem_cons.mp hnames
        have htotal : headerBytes (octets, payload) + headersBytes headers ≤ left := hbytes
        have hcost : r.fragments + (costHeader mode r.parser (octets, payload)
            + costHeaders mode (r.parser.advance (spellHeader (octets, payload)).length) headers)
            ≤ policy.config.maxBufferFragments := hmore
        refine ⟨_, _, _, _, ⟨octets, payload, hbegins, hname, by omega, rfl, rfl, rfl, by dsimp only; omega⟩,
          _, _, ?_, rfl, rfl⟩
        rw [ih (by simpa only [Parser.advance_total] using hfits) (by omega) (by dsimp only; omega)]
        refine ⟨headers, Nat.succ.inj hcount, hrest, hnames, by omega, rfl, ?_, hmore⟩
        have hlength := hall.length_le
        unfold spellHeaders at hlength ⊢
        rw [List.flatMap_cons, List.length_append] at hlength ⊢
        rw [Parser.advance_advance hlength, Nat.add_assoc]
        rfl

theorem readFields_eq_ok {p p' : Parser} {fields : RecordFields} (hfits : context.origin + p.total ≤ u64Max) :
    readFields .free expected p context = .ok (fields, p')
      ↔ p.Begins (beforeKey fields) ∧ fields.attributes = 0
        ∧ Representable expected.timestampBase fields.timestampDelta
        ∧ fields.logicalDelta.toNat < expected.originalCount
        ∧ p' = p.advance (beforeKey fields).length := by
  have hlengths : (beforeKey fields).length = 1 + (spellVarint fields.timestampDelta.toInt).length
      + (spellVaruint fields.logicalDelta.toNat).length := by
    unfold beforeKey
    rw [List.length_append, List.length_append, List.length_singleton, Nat.add_assoc]
  unfold readFields
  simp only [bind_eq_ok, pass_eq_ok, require_eq_ok, exists_const, Prod.exists, pure_eq_ok, readByte_eq_ok,
    readVarint_eq_ok, readVaruint_eq_ok (.inr rfl), Prod.mk.injEq]
  constructor
  · rintro ⟨_, attributes, _, ⟨_, hfirst, rfl⟩, hzero, timestamp, _, ⟨_, hsecond, rfl⟩, htimestamp, logical, _,
      ⟨_, hlogical, hthird, rfl⟩, hcount, rfl, rfl⟩
    have hnat : (UInt64.ofNat logical).toNat = logical := UInt64.toNat_ofNat_of_lt' hlogical
    have hall : p.Begins (beforeKey ⟨attributes, timestamp, UInt64.ofNat logical⟩) := by
      unfold beforeKey
      rw [Parser.begins_append, Parser.begins_append]
      dsimp only
      rw [hnat]
      exact ⟨hfirst, hsecond, hthird⟩
    have hle := hall.length_le
    rw [hlengths] at hle ⊢
    dsimp only at hle ⊢
    rw [hnat] at hle ⊢
    refine ⟨hall, hzero, htimestamp, hcount, ?_⟩
    rw [@Parser.advance_advance p _ _ (by omega), Parser.advance_advance hle]
  · rintro ⟨hall, hzero, htimestamp, hcount, rfl⟩
    have hle := hall.length_le
    unfold beforeKey at hall
    rw [Parser.begins_append, Parser.begins_append] at hall
    obtain ⟨hfirst, hsecond, hthird⟩ := hall
    have hlogical := fields.logicalDelta.toNat_lt
    rw [hlengths] at hle ⊢
    refine ⟨rfl, _, _, ⟨hfits, hfirst, rfl⟩, hzero, _, _, ⟨?_, hsecond, rfl⟩, htimestamp, _, _,
      ⟨?_, hlogical, hthird, rfl⟩, hcount, ?_, ?_⟩
    · simp only [Parser.advance_total]
      exact hfits
    · simp only [Parser.advance_total]
      exact hfits
    · rw [UInt64.ofNat_toNat]
    · rw [@Parser.advance_advance p _ _ (by omega), Parser.advance_advance hle]

theorem readCounted_eq_ok {out : List (α × Option α)} (hfits : context.origin + r.parser.total ≤ u64Max)
    (hspent : r.fragments ≤ policy.config.maxBufferFragments) :
    readCounted .free mode policy expected r context = .ok out
      ↔ ∃ headers : List (List UInt8 × Option (List UInt8)),
        r.parser.rest = spellVaruint headers.length ++ spellHeaders headers
        ∧ headers.length ≤ min policy.config.maxRecordHeaders
            (min policy.config.maxBatchHeaders expected.headersRemaining)
        ∧ (∀ header ∈ headers, header.1.length ≤ policy.config.maxHeaderNameBytes)
        ∧ headersBytes headers ≤ policy.config.maxRecordHeaderBytes
        ∧ out = placeHeaders mode (r.parser.advance (spellVaruint headers.length).length) headers
        ∧ r.fragments
            + costHeaders mode (r.parser.advance (spellVaruint headers.length).length) headers
          ≤ policy.config.maxBufferFragments := by
  have hmost := policy.maxRecordHeaderBytes_le
  have hnow : ∀ p : Parser, (Reading.mk p r.fragments).fragments ≤ policy.config.maxBufferFragments :=
    fun _ => hspent
  unfold readCounted
  simp only [bind_eq_ok, pass_eq_ok, require_eq_ok, exists_const, Prod.exists, pure_eq_ok,
    readVaruint_eq_ok (.inl rfl), Parser.remaining_eq]
  constructor
  · rintro ⟨_, count, _, ⟨_, _, hbegins, rfl⟩, hcount, _, _, _, _, r', h, hend, _, rfl⟩
    rw [readHeaders_eq_ok (by simpa only [Parser.advance_total] using hfits) (by omega) (hnow _)] at h
    obtain ⟨headers, rfl, hheaders, hnames, hbytes, rfl, rfl, hcost⟩ := h
    refine ⟨headers, ?_, hcount, hnames, hbytes, rfl, hcost⟩
    -- nothing is left behind the last header
    refine Parser.rest_eq_append.mpr ⟨hbegins, ?_⟩
    dsimp only at hheaders hend
    rw [Parser.advance_rest hheaders.length_le, List.length_drop] at hend
    have hle := hheaders.length_le
    exact (List.IsPrefix.eq_of_length hheaders (by omega)).symm
  · rintro ⟨headers, hrest, hcount, hnames, hbytes, rfl, hcost⟩
    obtain ⟨hbegins, hafter⟩ := Parser.rest_eq_append.mp hrest
    have hheaders : (r.parser.advance (spellVaruint headers.length).length).Begins
        (spellHeaders headers) := by
      unfold Parser.Begins
      exact ⟨[], (List.append_nil _).trans hafter.symm⟩
    have htwo := @two_mul_le_spellHeaders headers
    have hfew := policy.maxRecordHeaders_le
    refine ⟨rfl, headers.length, _, ⟨hfits, by omega, hbegins, rfl⟩, hcount, ?_, (), reserveHeaders_free, _,
      ⟨(r.parser.advance (spellVaruint headers.length).length).advance (spellHeaders headers).length,
        r.fragments + costHeaders mode (r.parser.advance (spellVaruint headers.length).length) headers⟩,
      ?_, ?_, rfl, rfl⟩
    · rw [hafter]
      omega
    · rw [readHeaders_eq_ok (by simpa only [Parser.advance_total] using hfits) (by omega) (hnow _)]
      exact ⟨headers, rfl, hheaders, hnames, hbytes, rfl, rfl, hcost⟩
    · dsimp only
      rw [Parser.advance_rest hheaders.length_le, hafter, List.drop_length]
      rfl

theorem spellBody_eq {content : Content} : spellBody content
    = beforeKey content.fields ++ (spellNullable content.key ++ (spellNullable content.value
      ++ (spellVaruint content.headers.length ++ spellHeaders content.headers))) := by
  unfold spellBody beforeKey
  simp only [List.append_assoc]

/-- **A body is accepted** exactly when it spells a record within the policy and the context, and its
    payloads come in few enough fragments. -/
theorem readBody_eq_ok {expected : DecodeContext} {p : Parser} {out : Shape α}
    (hfits : context.origin + p.total ≤ u64Max) :
    readBody .free mode policy expected p context = .ok out
      ↔ ∃ content : Content, p.rest = spellBody content ∧ Decodable policy expected content
        ∧ out = placeBody mode p content ∧ costBody mode p content ≤ policy.config.maxBufferFragments := by
  have hmost := policy.maxRecordBytes_le
  unfold readBody
  simp only [bind_eq_ok, Prod.exists, pure_eq_ok, readFields_eq_ok hfits, spellBody_eq,
    Parser.rest_eq_append]
  constructor
  · rintro ⟨fields, _, ⟨hfields, hzero, htimestamp, hlogical, rfl⟩, _, _, hkey, _, r, hvalue, headers, hcounted,
      rfl⟩
    rw [readNullable_eq_ok (by simpa only [Parser.advance_total] using hfits) (by omega) (Nat.zero_le _)]
      at hkey
    obtain ⟨key, hkey, hkeyle, rfl, rfl, hkeycost⟩ := hkey
    rw [readNullable_eq_ok (by simpa only [Parser.advance_total] using hfits) (by omega) hkeycost] at hvalue
    obtain ⟨value, hvalue, hvaluele, rfl, rfl, hvaluecost⟩ := hvalue
    rw [readCounted_eq_ok (by simpa only [Parser.advance_total] using hfits) hvaluecost] at hcounted
    obtain ⟨headers, hheaders, hcount, hnames, hbytes, rfl, hcost⟩ := hcounted
    obtain ⟨hlength, hrest⟩ := Parser.rest_eq_append.mp hheaders
    refine ⟨⟨fields, key, value, headers⟩, ⟨hfields, hkey, hvalue, hlength, hrest⟩,
      ⟨hzero, htimestamp, hlogical, hkeyle, hvaluele, hcount, hnames, hbytes⟩, rfl, ?_⟩
    dsimp only at hcost
    rw [Nat.zero_add] at hcost
    exact hcost
  · rintro ⟨⟨fields, key, value, headers⟩, ⟨hfields, hkey, hvalue, hlength, hrest⟩, hdecodable, rfl, hcost⟩
    unfold costBody at hcost
    dsimp only at hfields hkey hvalue hlength hrest hcost
    refine ⟨fields, _, ⟨hfields, hdecodable.attributes, hdecodable.timestamp, hdecodable.logical, rfl⟩, _, _,
      (readNullable_eq_ok (by simpa only [Parser.advance_total] using hfits) (by omega)
        (Nat.zero_le _)).mpr ⟨key, hkey, hdecodable.key, rfl, rfl, ?_⟩, _, _,
      (readNullable_eq_ok (by simpa only [Parser.advance_total] using hfits) (by omega)
        ?_).mpr ⟨value, hvalue, hdecodable.value, rfl, rfl, ?_⟩, _,
      (readCounted_eq_ok (by simpa only [Parser.advance_total] using hfits) ?_).mpr
        ⟨headers, Parser.rest_eq_append.mpr ⟨hlength, hrest⟩, hdecodable.headers, hdecodable.names,
          hdecodable.payload, rfl, ?_⟩, rfl⟩
    all_goals
      dsimp only
      omega

end KwaqueStorage.Records
