import KwaqueStorage.RetryPages.Page

/-!
# Fields written at fixed offsets

The fixed part of a stored object is an array of zeros into which each field is stored at its own offset:
an integer low octet first, an identity or a digest as its octets. A reader takes each field from the same
offset. What is said here is that fields which lie apart are read back as they were written, in whatever
order they were stored, and that a place no field was stored at still reads zero.
-/

namespace KwaqueStorage.Codec

open RetryPages

/-- The octets of a number, the low one first. -/
def lowOctets : Nat → Nat → List UInt8
  | 0, _ => []
  | width + 1, n => UInt8.ofNat n :: lowOctets width (n / 256)

@[simp] theorem length_lowOctets {width n : Nat} : (lowOctets width n).length = width := by
  induction width generalizing n with
  | zero => rfl
  | succ width ih => rw [lowOctets, List.length_cons, ih]

theorem littleEndian_lowOctets {width n : Nat} (h : n < 256 ^ width) :
    littleEndian (lowOctets width n) = n := by
  induction width generalizing n with
  | zero =>
    rw [Nat.pow_zero, Nat.lt_one_iff] at h
    exact h.symm
  | succ width ih =>
    have hrest : n / 256 < 256 ^ width := by
      rw [Nat.div_lt_iff_lt_mul (by decide), ← Nat.pow_succ]
      exact h
    rw [lowOctets, littleEndian, ih hrest, UInt8.toNat_ofNat']
    omega

/-- One field: where it lies, how wide it is, and what is stored there. -/
structure Field where
  offset : Nat
  width : Nat
  value : Nat
  /-- The octets of identities and digests stand the high one first. -/
  highFirst : Bool := false

namespace Field

/-- The octets of a field. -/
def octets (f : Field) : List UInt8 :=
  if f.highFirst then (lowOctets f.width f.value).reverse else lowOctets f.width f.value

/-- Where a field lies. -/
def place (f : Field) : Nat × Nat := (f.offset, f.width)

@[simp] theorem length_octets (f : Field) : f.octets.length = f.width := by
  unfold octets
  split
  next => rw [List.length_reverse, length_lowOctets]
  next => exact length_lowOctets

end Field

/-- `store` and `write_id`: octets put at an offset of an array. -/
def store (raw : List UInt8) (offset : Nat) (octets : List UInt8) : List UInt8 :=
  raw.take offset ++ octets ++ raw.drop (offset + octets.length)

/-- An array of zeros with fields stored in it. -/
def writeFields (size : Nat) (fields : List Field) : List UInt8 :=
  fields.foldl (fun raw f => store raw f.offset f.octets) (List.replicate size 0)

/-! ## One store -/

section Store

variable {raw octets : List UInt8} {offset other width : Nat}

theorem length_store (h : offset + octets.length ≤ raw.length) :
    (store raw offset octets).length = raw.length := by
  unfold store
  rw [List.length_append, List.length_append, List.length_take, List.length_drop]
  omega

theorem field_store_self (h : offset + octets.length ≤ raw.length) :
    field (store raw offset octets) offset octets.length = octets := by
  have hlen : (raw.take offset).length = offset := by
    rw [List.length_take]
    omega
  unfold field store
  rw [List.append_assoc, List.drop_append_of_le_length (by omega), List.drop_of_length_le (by omega),
    List.nil_append, List.take_append_of_le_length (Nat.le_refl _), List.take_length]

/-- **A store leaves what lies apart from it.** -/
theorem field_store_apart (h : offset + octets.length ≤ raw.length)
    (hapart : offset + octets.length ≤ other ∨ other + width ≤ offset) :
    field (store raw offset octets) other width = field raw other width := by
  have hlen : (raw.take offset).length = offset := by
    rw [List.length_take]
    omega
  unfold field store
  rcases hapart with hafter | hbefore
  · have hfront : (raw.take offset ++ octets).length ≤ other := by
      rw [List.length_append]
      omega
    rw [List.drop_append, List.drop_of_length_le hfront, List.nil_append, List.length_append, hlen,
      List.drop_drop, Nat.add_sub_cancel' hafter]
  · rw [List.append_assoc, List.drop_append_of_le_length (by omega), List.drop_take,
      List.take_append_of_le_length (by rw [List.length_take, List.length_drop]; omega),
      List.take_take, min_eq_left (by omega)]

/-- A second store at a place undoes the first. -/
theorem store_store {later : List UInt8} (h : offset + octets.length ≤ raw.length)
    (hlen : later.length = octets.length) :
    store (store raw offset octets) offset later = store raw offset later := by
  have hfront : (raw.take offset).length = offset := by
    rw [List.length_take]
    omega
  have htake : (store raw offset octets).take offset = raw.take offset := by
    unfold store
    rw [List.append_assoc, List.take_append_of_le_length (by omega), List.take_take, min_self]
  have hdrop : (store raw offset octets).drop (offset + later.length)
      = raw.drop (offset + later.length) := by
    unfold store
    rw [List.drop_append_of_le_length (by rw [List.length_append]; omega),
      List.drop_of_length_le (by rw [List.length_append]; omega), List.nil_append, hlen]
  change (store raw offset octets).take offset ++ later ++ _ = _
  rw [htake, hdrop]
  rfl

end Store

/-! ## Fields that lie apart -/

/-- Two places that share no octet. -/
def placesApart (a b : Nat × Nat) : Bool := decide (a.1 + a.2 ≤ b.1 ∨ b.1 + b.2 ≤ a.1)

/-- Places that share no octet, all of them in an array of a size. -/
def laidOut (size : Nat) (places : List (Nat × Nat)) : Bool :=
  places.all (fun place => decide (place.1 + place.2 ≤ size))
    && decide (places.Pairwise fun a b => placesApart a b = true)

section Fields

variable {size : Nat} {fields : List Field}

theorem writeFields_append {f : Field} :
    writeFields size (fields ++ [f]) = store (writeFields size fields) f.offset f.octets := by
  unfold writeFields
  rw [List.foldl_append]
  rfl

theorem laidOut_append {f : Field} (h : laidOut size ((fields ++ [f]).map Field.place) = true) :
    laidOut size (fields.map Field.place) = true ∧ f.offset + f.width ≤ size
      ∧ ∀ other ∈ fields, placesApart other.place f.place = true := by
  rw [List.map_append, laidOut, Bool.and_eq_true, decide_eq_true_eq, List.all_append,
    Bool.and_eq_true, List.pairwise_append] at h
  obtain ⟨⟨hfits, hlast⟩, hpairwise, _, hcross⟩ := h
  refine ⟨?_, ?_, ?_⟩
  · rw [laidOut, Bool.and_eq_true, decide_eq_true_eq]
    exact ⟨hfits, hpairwise⟩
  · simpa [Field.place] using hlast
  · intro other hother
    exact hcross _ (List.mem_map_of_mem hother) _ (List.mem_singleton.mpr rfl)

theorem length_writeFields (h : laidOut size (fields.map Field.place) = true) :
    (writeFields size fields).length = size := by
  induction fields using List.reverseRecOn with
  | nil => exact List.length_replicate
  | append_singleton fields f ih =>
    obtain ⟨hrest, hfits, _⟩ := laidOut_append h
    rw [writeFields_append, length_store, ih hrest]
    rw [ih hrest, Field.length_octets]
    exact hfits

/-- **A field is read as it was stored.** -/
theorem field_writeFields (h : laidOut size (fields.map Field.place) = true) {f : Field}
    (hf : f ∈ fields) : field (writeFields size fields) f.offset f.width = f.octets := by
  induction fields using List.reverseRecOn with
  | nil => cases hf
  | append_singleton fields last ih =>
    obtain ⟨hrest, hfits, hapart⟩ := laidOut_append h
    have hbound : last.offset + last.octets.length ≤ (writeFields size fields).length := by
      rw [length_writeFields hrest, Field.length_octets]
      exact hfits
    rw [writeFields_append]
    rcases List.mem_append.mp hf with hf | hf
    · have hplaces := of_decide_eq_true (hapart f hf)
      rw [field_store_apart hbound ?_, ih hrest hf]
      rw [Field.length_octets]
      exact Or.symm hplaces
    · obtain rfl := List.mem_singleton.mp hf
      rw [← Field.length_octets f]
      exact field_store_self hbound

/-- **A place apart from every field** reads zero. -/
theorem field_writeFields_apart (h : laidOut size (fields.map Field.place) = true) {place : Nat × Nat}
    (hfits : place.1 + place.2 ≤ size)
    (hapart : ((fields.map Field.place).all fun other => placesApart other place) = true) :
    field (writeFields size fields) place.1 place.2 = List.replicate place.2 0 := by
  induction fields using List.reverseRecOn with
  | nil =>
    unfold field writeFields
    rw [List.foldl_nil, List.drop_replicate, List.take_replicate, min_eq_left (by omega)]
  | append_singleton fields last ih =>
    obtain ⟨hrest, hlast, _⟩ := laidOut_append h
    rw [List.map_append, List.all_append, Bool.and_eq_true] at hapart
    have hbound : last.offset + last.octets.length ≤ (writeFields size fields).length := by
      rw [length_writeFields hrest, Field.length_octets]
      exact hlast
    have hplace : placesApart last.place place = true := by simpa using hapart.2
    rw [writeFields_append, field_store_apart hbound, ih hrest hapart.1]
    rw [Field.length_octets]
    exact of_decide_eq_true hplace

/-- **An integer is loaded as it was stored.** -/
theorem load_writeFields {offset width value : Nat} (h : laidOut size (fields.map Field.place) = true)
    (hf : ⟨offset, width, value, false⟩ ∈ fields) (hvalue : value < 256 ^ width) :
    load (writeFields size fields) offset width = value := by
  have hfield := field_writeFields h hf
  unfold load
  rw [hfield]
  exact littleEndian_lowOctets hvalue

/-- **An identity is read as it was stored.** -/
theorem id_writeFields {offset width value : Nat}
    (h : laidOut size (fields.map Field.place) = true) (hf : ⟨offset, width, value, true⟩ ∈ fields)
    (hvalue : value < 256 ^ width) :
    bigEndian (field (writeFields size fields) offset width) = value := by
  have hfield := field_writeFields h hf
  unfold bigEndian
  rw [hfield]
  change littleEndian (lowOctets width value).reverse.reverse = value
  rw [List.reverse_reverse]
  exact littleEndian_lowOctets hvalue

theorem littleEndian_zeros {n : Nat} : littleEndian (List.replicate n 0) = 0 := by
  induction n with
  | zero => rfl
  | succ n ih =>
    rw [List.replicate_succ, littleEndian, ih]
    rfl

/-- An integer no field was stored over is zero. -/
theorem load_writeFields_apart {offset width : Nat} (h : laidOut size (fields.map Field.place) = true)
    (hfits : offset + width ≤ size)
    (hapart : ((fields.map Field.place).all fun other => placesApart other (offset, width)) = true) :
    load (writeFields size fields) offset width = 0 := by
  have hfield := @field_writeFields_apart size fields h (offset, width) hfits hapart
  unfold load
  rw [hfield]
  exact littleEndian_zeros

end Fields

/-- Fields of the front of an array are those of the array. -/
theorem field_append {raw rest : List UInt8} {offset width : Nat} (h : offset + width ≤ raw.length) :
    field (raw ++ rest) offset width = field raw offset width := by
  unfold field
  rw [List.drop_append_of_le_length (by omega),
    List.take_append_of_le_length (by rw [List.length_drop]; omega)]

theorem load_append {raw rest : List UInt8} {offset width : Nat} (h : offset + width ≤ raw.length) :
    load (raw ++ rest) offset width = load raw offset width := by
  unfold load
  rw [field_append h]

/-- **Records of one width back to back**: the first is in front, and the others behind it. -/
theorem flatten_front {α : Type} {write : α → List UInt8} {width : Nat}
    (hwidth : ∀ a, (write a).length = width) (a : α) (more : List α) (rest : List UInt8) :
    (((a :: more).map write).flatten ++ rest).take width = write a
      ∧ (((a :: more).map write).flatten ++ rest).drop width = (more.map write).flatten ++ rest
      ∧ width ≤ (((a :: more).map write).flatten ++ rest).length := by
  rw [List.map_cons, List.flatten_cons, List.append_assoc, ← hwidth a]
  refine ⟨List.take_left, List.drop_left, ?_⟩
  rw [List.length_append]
  exact Nat.le_add_right _ _

end KwaqueStorage.Codec
