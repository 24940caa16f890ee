import KwaqueStorage.Base.Types

/-!
# Reading a file object by object

`scan_reader`: one sequential pass over a file, which classifies what lies at its cursor and
moves past an object by the length its header verified. A file is the list of its bytes. The
windows the source reads ahead, and the memory it admits for them, do not show in what it
answers, so a reader is its file and its end here.

The envelope codec is a parameter: what it makes of a fixed prefix, and whether a header's
checksum holds.
-/

namespace KwaqueStorage.Scan

/-- `envelope_prefix_bytes`. -/
def envelopePrefixBytes : Nat := 32

/-- Why `peek_envelope_prefix` refused a prefix. A refused body extent leaves the header's
    length usable. -/
structure PrefixError where
  code : Errc
  bodyExtent : Bool
  deriving DecidableEq

/-- `header_bytes`, as it lies in the prefix. -/
def headerBytes (raw : List UInt8) : Nat := raw[10]!.toNat + 256 * raw[11]!.toNat

/-- What a scan asks of the envelope codec: the encoded length of the object a prefix begins,
    and the header checksum. -/
structure Envelope where
  peekPrefix : List UInt8 → Except PrefixError Nat
  headerCrc : List UInt8 → Bool
  /-- A header is as long as the fixed prefix at least, and an object as its header. -/
  extents : ∀ raw length, peekPrefix raw = .ok length →
    envelopePrefixBytes ≤ headerBytes raw ∧ headerBytes raw ≤ length

/-- `scan_slot`: what lies at the cursor. An object has its exact bytes. -/
inductive Slot
  | object (bytes : List UInt8)
  | end_
  | zero
  | torn
  | corrupt (cause : Errc)
  | malformed (cause : Errc)
  deriving DecidableEq

/-- The bytes of a file from a position on. -/
def bytesAt (file : List UInt8) (position length : Nat) : List UInt8 :=
  (file.drop position).take length

/-- `scan_reader::classify`. -/
def classify (envelope : Envelope) (file : List UInt8) (position end_ : Nat) :
    Except Errc Slot :=
  let remaining := end_ - position
  if remaining = 0 then .ok .end_
  else if remaining < envelopePrefixBytes then .ok .torn
  else
    let raw := bytesAt file position envelopePrefixBytes
    if raw.all (· = 0) then .ok .zero
    else
      match envelope.peekPrefix raw with
      | .error why =>
        if why.bodyExtent = false then .ok (.malformed why.code)
        else if headerBytes raw > remaining then .ok .torn
        else if envelope.headerCrc (bytesAt file position (headerBytes raw)) = false then
          .ok (.corrupt .corruptData)
        -- a size only the limits refuse is a resource limit, never damage
        else if why.code = .resourceExhausted then .error .resourceExhausted
        else .ok (.malformed why.code)
      | .ok length =>
        if headerBytes raw > remaining then .ok .torn
        else if envelope.headerCrc (bytesAt file position (headerBytes raw)) = false then
          .ok (.corrupt .corruptData)
        else if length > remaining then .ok .torn
        else .ok (.object (bytesAt file position length))

theorem length_bytesAt {file : List UInt8} {position length : Nat}
    (h : position + length ≤ file.length) : (bytesAt file position length).length = length := by
  simp only [bytesAt, List.length_take, List.length_drop]
  omega

/-- At its end a reader has nothing left. -/
theorem classify_end {envelope : Envelope} {file : List UInt8} {position : Nat} :
    classify envelope file position position = .ok .end_ := by
  simp [classify]

/-- **An object lies whole before the end**, and is the same object whatever end lies after it. -/
theorem classify_object {envelope : Envelope} {file : List UInt8} {position end_ : Nat}
    {bytes : List UInt8} (h : classify envelope file position end_ = .ok (.object bytes))
    (hend : end_ ≤ file.length) :
    envelopePrefixBytes ≤ bytes.length ∧ position + bytes.length ≤ end_
      ∧ ∀ later, position + bytes.length ≤ later →
        classify envelope file position later = .ok (.object bytes) := by
  simp only [classify] at h
  split at h
  · cases h
  split at h
  · cases h
  split at h
  · cases h
  next hnonzero =>
  split at h
  · split at h
    · cases h
    · split at h
      · cases h
      · split at h
        · cases h
        · split at h <;> cases h
  · next length hfront =>
    split at h
    · cases h
    · split at h
      · cases h
      next hcrc =>
      split at h
      · cases h
      next hlength =>
      obtain rfl : bytesAt file position length = bytes := by simpa using h
      obtain ⟨hheader, hle⟩ := envelope.extents _ _ hfront
      have hlen : (bytesAt file position length).length = length := length_bytesAt (by omega)
      have hfixed : envelopePrefixBytes = 32 := rfl
      rw [hlen]
      refine ⟨by omega, by omega, ?_⟩
      intro later hlater
      simp only [classify]
      rw [if_neg (by omega), if_neg (by omega), if_neg hnonzero, hfront]
      simp only
      rw [if_neg (by omega), if_neg hcrc, if_neg (by omega)]

end KwaqueStorage.Scan
