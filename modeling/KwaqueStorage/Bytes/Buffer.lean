import KwaqueStorage.Base.Types
import KwaqueStorage.Lib.Fragments

/-!
# Buffers in fragments

`fragmented_buffer` is a sequence of owning fragments, each a piece of storage with the size of the
allocation it keeps alive. What a piece of storage is does not matter to the buffer: it asks for its size
and for a shared part of it, so the buffer is written over any storage that has the two.

A buffer that was published is **sound**: its counts are the sums over its fragments, no fragment is empty,
and there are at most `max_buffer_fragments` of them.
-/

namespace KwaqueStorage.Bytes

open Lib

/-- `seastar::temporary_buffer`, as far as a buffer of fragments looks at it: `size`, and `share` of a part
    of it by where the part starts and how long it is. -/
class Storage (σ : Type) where
  size : σ → Nat
  share : σ → Nat → Nat → σ
  size_share : ∀ {storage : σ} {skip take : Nat}, skip + take ≤ size storage →
    size (share storage skip take) = take

/-- `owned_fragment`. -/
structure Fragment (σ : Type) where
  storage : σ
  retainedBytes : Nat
  deriving DecidableEq

/-- `max_buffer_fragments`. -/
def maxBufferFragments : Nat := 1024

/-- `maximum_contiguous_allocation_bytes`. -/
def maximumContiguousAllocationBytes : Nat := 131072

/-- `max_buffer_bytes`. -/
def maxBufferBytes : Nat := maxBufferFragments * maximumContiguousAllocationBytes

/-- `fragmented_buffer`. -/
structure Buffer (σ : Type) where
  fragments : List (Fragment σ) := []
  size : Nat := 0
  retainedBytes : Nat := 0
  generation : Nat := 0
  deriving DecidableEq

variable {σ : Type} [Storage σ]

/-- How many bytes a fragment presents. -/
def Fragment.size (fragment : Fragment σ) : Nat := Storage.size fragment.storage

/-- A part of a fragment, which keeps the whole allocation alive. -/
def Fragment.share (fragment : Fragment σ) (skip take : Nat) : Fragment σ :=
  ⟨Storage.share fragment.storage skip take, fragment.retainedBytes⟩

theorem Fragment.size_share {fragment : Fragment σ} {skip take : Nat}
    (h : skip + take ≤ fragment.size) : (fragment.share skip take).size = take := Storage.size_share h

/-- The bytes some fragments present. -/
def sizes (fragments : List (Fragment σ)) : Nat := (fragments.map Fragment.size).sum

/-- The bytes some fragments keep alive. -/
def backing (fragments : List (Fragment σ)) : Nat := (fragments.map Fragment.retainedBytes).sum

/-- A fragment that a published buffer may hold. -/
structure Fragment.Sound (fragment : Fragment σ) : Prop where
  nonempty : 0 < fragment.size
  held : fragment.size ≤ fragment.retainedBytes

/-- A buffer whose counts are those of its fragments. -/
structure Buffer.Sound (buffer : Buffer σ) : Prop where
  size : buffer.size = sizes buffer.fragments
  retained : buffer.retainedBytes = backing buffer.fragments
  fragments : ∀ fragment ∈ buffer.fragments, fragment.Sound
  few : buffer.fragments.length ≤ maxBufferFragments
  bounded : buffer.retainedBytes ≤ maxBufferBytes

/-- `fragmented_buffer::share`, of the whole. -/
def Buffer.shareWhole (buffer : Buffer σ) : Buffer σ where
  fragments := buffer.fragments.map fun fragment => fragment.share 0 fragment.size
  size := buffer.size
  retainedBytes := buffer.retainedBytes

/-- The loop of `share_from`: `skip` is what is left out of the fragment it is at, `remaining` what it has
    yet to share. -/
def shareLoop : List (Fragment σ) → (skip remaining : Nat) → (shared : List (Fragment σ)) →
    (retained : Nat) → Except Errc (List (Fragment σ) × Nat)
  | [], _, remaining, shared, retained =>
    if remaining ≠ 0 then .error .outOfRange else .ok (shared, retained)
  | fragment :: more, skip, remaining, shared, retained =>
    if remaining = 0 then .ok (shared, retained)
    else
      let take := min (fragment.size - skip) remaining
      if shared.length = maxBufferFragments then .error .resourceExhausted
      else shareLoop more 0 (remaining - take) (shared ++ [fragment.share skip take])
        (retained + fragment.retainedBytes)

/-- `fragmented_buffer::share_from`. -/
def Buffer.shareFrom (buffer : Buffer σ) (first offset length : Nat) : Except Errc (Buffer σ) :=
  if first = 0 ∧ offset = 0 ∧ length = buffer.size then .ok buffer.shareWhole
  else
    match shareLoop (buffer.fragments.drop first) offset length [] 0 with
    | .error e => .error e
    | .ok (shared, retained) => .ok { fragments := shared, size := length, retainedBytes := retained }

/-! ## Sums over fragments -/

variable {fragments : List (Fragment σ)}

theorem sizes_cons {fragment : Fragment σ} :
    sizes (fragment :: fragments) = fragment.size + sizes fragments := List.sum_cons

theorem sizes_append {first second : List (Fragment σ)} :
    sizes (first ++ second) = sizes first + sizes second := by
  unfold sizes
  rw [List.map_append, List.sum_append]

omit [Storage σ] in
theorem backing_cons {fragment : Fragment σ} :
    backing (fragment :: fragments) = fragment.retainedBytes + backing fragments := List.sum_cons

omit [Storage σ] in
theorem backing_append {first second : List (Fragment σ)} :
    backing (first ++ second) = backing first + backing second := by
  unfold backing
  rw [List.map_append, List.sum_append]

theorem sizes_split {fragments : List (Fragment σ)} (count : Nat) :
    sizes (fragments.take count) + sizes (fragments.drop count) = sizes fragments := by
  rw [← sizes_append, List.take_append_drop]

omit [Storage σ] in
theorem backing_split {fragments : List (Fragment σ)} (count : Nat) :
    backing (fragments.take count) + backing (fragments.drop count) = backing fragments := by
  rw [← backing_append, List.take_append_drop]

theorem Buffer.Sound.empty : ({} : Buffer σ).Sound where
  size := rfl
  retained := rfl
  fragments := nofun
  few := Nat.zero_le _
  bounded := Nat.zero_le _

/-! ## The parts that are shared -/

/-- The parts of some fragments from an offset into the first on, so many bytes of them. -/
def carve : List (Fragment σ) → (skip remaining : Nat) → List (Fragment σ)
  | [], _, _ => []
  | fragment :: more, skip, remaining =>
    if remaining = 0 then []
    else
      let take := min (fragment.size - skip) remaining
      fragment.share skip take :: carve more 0 (remaining - take)

theorem carve_length_le {skip remaining : Nat} :
    (carve fragments skip remaining).length ≤ fragments.length := by
  induction fragments generalizing skip remaining with
  | nil => exact Nat.le_refl _
  | cons fragment more ih =>
    rw [carve]
    split
    next => exact Nat.zero_le _
    next => exact Nat.succ_le_succ ih

theorem carve_backing_le {skip remaining : Nat} :
    backing (carve fragments skip remaining) ≤ backing fragments := by
  induction fragments generalizing skip remaining with
  | nil => exact Nat.le_refl _
  | cons fragment more ih =>
    rw [carve, backing_cons]
    split
    next => exact Nat.zero_le _
    next =>
      rw [backing_cons]
      exact Nat.add_le_add_left ih _

/-- A place within the first of some fragments, or at their end. -/
def Within : List (Fragment σ) → Nat → Prop
  | [], offset => offset = 0
  | fragment :: _, offset => offset < fragment.size

theorem Within.zero (h : ∀ fragment ∈ fragments, fragment.Sound) :
    Within fragments 0 := by
  cases fragments with
  | nil => rfl
  | cons fragment more => exact (h fragment (List.mem_cons_self ..)).nonempty

theorem Within.le_sizes {offset : Nat} (h : Within fragments offset) :
    offset ≤ sizes fragments := by
  cases fragments with
  | nil => exact Nat.le_of_eq h
  | cons fragment more =>
    have hlt : offset < fragment.size := h
    rw [sizes_cons]
    omega

theorem carve_sizes {skip remaining : Nat} (hwithin : Within fragments skip)
    (h : ∀ fragment ∈ fragments, fragment.Sound) (hle : skip + remaining ≤ sizes fragments) :
    sizes (carve fragments skip remaining) = remaining := by
  induction fragments generalizing skip remaining with
  | nil =>
    have hzero : skip + remaining ≤ 0 := hle
    rw [carve]
    change 0 = remaining
    omega
  | cons fragment more ih =>
    have hmore : ∀ other ∈ more, other.Sound := fun other hmem => h other (List.mem_cons_of_mem _ hmem)
    have hlt : skip < fragment.size := hwithin
    rw [sizes_cons] at hle
    rw [carve]
    split
    next hzero => exact hzero.symm
    next =>
      dsimp only
      rw [sizes_cons, Fragment.size_share (by omega), ih (Within.zero hmore) hmore (by omega)]
      omega

theorem carve_sound {skip remaining : Nat} (hwithin : Within fragments skip)
    (h : ∀ fragment ∈ fragments, fragment.Sound) :
    ∀ fragment ∈ carve fragments skip remaining, fragment.Sound := by
  induction fragments generalizing skip remaining with
  | nil => exact nofun
  | cons fragment more ih =>
    have hmore : ∀ other ∈ more, other.Sound := fun other hmem => h other (List.mem_cons_of_mem _ hmem)
    have hfirst := h fragment (List.mem_cons_self ..)
    have hlt : skip < fragment.size := hwithin
    rw [carve]
    split
    next => exact nofun
    next hsome =>
      intro other hmem
      rcases List.mem_cons.mp hmem with rfl | hmem
      · have hsize : (fragment.share skip (min (fragment.size - skip) remaining)).size
            = min (fragment.size - skip) remaining := Fragment.size_share (by omega)
        have hheld := hfirst.held
        refine ⟨by omega, ?_⟩
        change _ ≤ fragment.retainedBytes
        omega
      · exact ih (Within.zero hmore) hmore other hmem

/-- The loop shares those parts: neither of its refusals can happen. -/
theorem shareLoop_eq {skip remaining retained : Nat} {shared : List (Fragment σ)}
    (hwithin : Within fragments skip) (h : ∀ fragment ∈ fragments, fragment.Sound)
    (hle : skip + remaining ≤ sizes fragments) (hfew : shared.length + fragments.length ≤ maxBufferFragments) :
    shareLoop fragments skip remaining shared retained
      = .ok (shared ++ carve fragments skip remaining,
          retained + backing (carve fragments skip remaining)) := by
  induction fragments generalizing skip remaining shared retained with
  | nil =>
    have hzero : skip + remaining ≤ 0 := hle
    rw [shareLoop, if_neg (by omega), carve, List.append_nil]
    rfl
  | cons fragment more ih =>
    have hmore : ∀ other ∈ more, other.Sound := fun other hmem => h other (List.mem_cons_of_mem _ hmem)
    have hlt : skip < fragment.size := hwithin
    rw [List.length_cons] at hfew
    rw [sizes_cons] at hle
    rw [shareLoop, carve]
    split
    next =>
      rw [List.append_nil]
      rfl
    next =>
      dsimp only
      rw [if_neg (by omega), ih (Within.zero hmore) hmore (by omega)
        (by rw [List.length_append, List.length_singleton]; omega), List.append_assoc, backing_cons,
        Nat.add_assoc]
      rfl

/-! ## What fragments hold -/

section Contents

variable {α : Type} {den : σ → List α}

/-- What some fragments hold, for a reading of their storage. -/
def contents (den : σ → List α) (fragments : List (Fragment σ)) : List (List α) :=
  fragments.map fun fragment => den fragment.storage

/-- A reading finds as much in each fragment as the fragment has. -/
def Readable (den : σ → List α) (fragments : List (Fragment σ)) : Prop :=
  ∀ fragment ∈ fragments, (den fragment.storage).length = fragment.size

/-- A reading of a shared part is that part of the reading. -/
def Shares (den : σ → List α) : Prop := ∀ (storage : σ) (skip take : Nat),
  skip + take ≤ Storage.size storage → den (Storage.share storage skip take)
    = ((den storage).drop skip).take take

theorem Readable.sizes_eq {fragments : List (Fragment σ)} (h : Readable den fragments) :
    sizes fragments = (contents den fragments).flatten.length := by
  unfold sizes contents
  rw [List.length_flatten, List.map_map]
  exact congrArg List.sum (List.map_congr_left fun fragment hmem => (h fragment hmem).symm)

theorem Within.placed {fragments : List (Fragment σ)} {offset : Nat} (h : Within fragments offset)
    (hread : Readable den fragments) : Fragments.Placed (contents den fragments) offset := by
  cases fragments with
  | nil => exact h
  | cons fragment more => exact Nat.lt_of_lt_of_eq h (hread fragment (List.mem_cons_self ..)).symm

/-- **Parts that are carved out** hold what is cut out of what the fragments hold. -/
theorem contents_carve {fragments : List (Fragment σ)} {skip remaining : Nat} (hshares : Shares den)
    (hread : Readable den fragments) (hwithin : Within fragments skip)
    (h : ∀ fragment ∈ fragments, fragment.Sound) :
    contents den (carve fragments skip remaining)
      = Fragments.cut (contents den fragments) skip remaining := by
  induction fragments generalizing skip remaining with
  | nil => rfl
  | cons fragment more ih =>
    have hmore : ∀ other ∈ more, other.Sound := fun other hmem => h other (List.mem_cons_of_mem _ hmem)
    have hrest : Readable den more := fun other hmem => hread other (List.mem_cons_of_mem _ hmem)
    have hlength := hread fragment (List.mem_cons_self ..)
    have hlt : skip < fragment.size := hwithin
    have htaken : skip + min (fragment.size - skip) remaining ≤ fragment.size := by omega
    change _ = Fragments.cut (den fragment.storage :: contents den more) skip remaining
    rw [carve, Fragments.cut]
    split
    next => rfl
    next =>
      rw [hlength]
      change den (Storage.share fragment.storage skip _) :: contents den (carve more 0 _) = _
      rw [hshares _ _ _ htaken, ih hrest (Within.zero hmore) hmore]

end Contents

/-- A share of the whole is sound, with the same counts. -/
theorem Buffer.Sound.shareWhole {buffer : Buffer σ} (h : buffer.Sound) : buffer.shareWhole.Sound := by
  have hsize : ∀ fragment : Fragment σ, (fragment.share 0 fragment.size).size = fragment.size :=
    fun fragment => Fragment.size_share (by omega)
  have hsizes : sizes buffer.shareWhole.fragments = sizes buffer.fragments := by
    unfold sizes Buffer.shareWhole
    rw [List.map_map]
    exact congrArg List.sum (List.map_congr_left fun fragment _ => hsize fragment)
  have hbacking : backing buffer.shareWhole.fragments = backing buffer.fragments := by
    unfold backing Buffer.shareWhole
    rw [List.map_map]
    rfl
  refine ⟨h.size.trans hsizes.symm, h.retained.trans hbacking.symm, ?_, ?_, h.bounded⟩
  · intro fragment hmem
    obtain ⟨source, hsource, rfl⟩ := List.mem_map.mp hmem
    obtain ⟨hnonempty, hheld⟩ := h.fragments source hsource
    refine ⟨(hsize source).symm ▸ hnonempty, ?_⟩
    rw [hsize]
    exact hheld
  · exact (List.length_map _).trans_le h.few

/-- **A share of a part** from a place within a buffer succeeds, and is the parts carved out there. -/
theorem Buffer.shareFrom_eq {buffer : Buffer σ} {first offset length : Nat} (h : buffer.Sound)
    (hwithin : Within (buffer.fragments.drop first) offset)
    (hle : offset + length ≤ sizes (buffer.fragments.drop first))
    (hpart : ¬(first = 0 ∧ offset = 0 ∧ length = buffer.size)) :
    buffer.shareFrom first offset length = .ok
      { fragments := carve (buffer.fragments.drop first) offset length, size := length,
        retainedBytes := backing (carve (buffer.fragments.drop first) offset length) } := by
  have hsound : ∀ fragment ∈ buffer.fragments.drop first, fragment.Sound :=
    fun fragment hmem => h.fragments fragment (List.mem_of_mem_drop hmem)
  have hfew : ([] : List (Fragment σ)).length + (buffer.fragments.drop first).length
      ≤ maxBufferFragments := by
    rw [List.length_nil, Nat.zero_add, List.length_drop]
    exact (Nat.sub_le _ _).trans h.few
  unfold Buffer.shareFrom
  rw [if_neg hpart, shareLoop_eq hwithin hsound hle hfew, List.nil_append, Nat.zero_add]

theorem Buffer.Sound.carved {buffer : Buffer σ} {first offset length : Nat} (h : buffer.Sound)
    (hwithin : Within (buffer.fragments.drop first) offset)
    (hle : offset + length ≤ sizes (buffer.fragments.drop first)) :
    ({ fragments := carve (buffer.fragments.drop first) offset length, size := length,
        retainedBytes := backing (carve (buffer.fragments.drop first) offset length) } :
      Buffer σ).Sound := by
  have hsound : ∀ fragment ∈ buffer.fragments.drop first, fragment.Sound :=
    fun fragment hmem => h.fragments fragment (List.mem_of_mem_drop hmem)
  refine ⟨(carve_sizes hwithin hsound hle).symm, rfl, carve_sound hwithin hsound, ?_, ?_⟩
  · refine carve_length_le.trans ?_
    rw [List.length_drop]
    exact (Nat.sub_le _ _).trans h.few
  · have hsplit := @backing_split _ buffer.fragments first
    have hretained := h.retained
    have hbounded := h.bounded
    exact carve_backing_le.trans (by omega)

end KwaqueStorage.Bytes
