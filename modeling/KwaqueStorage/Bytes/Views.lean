import KwaqueStorage.Bytes.Appends

/-!
# Operations on a published buffer

What is done to a buffer after it was published never writes to its bytes: it shares them, drops some at an
end, copies them to fresh storage or hands them out in batches for vectored I/O. Each takes the buffer to
windows that are parts of its own, or of fresh blocks.
-/

namespace KwaqueStorage.Bytes

open Lib

/-! ## The operations -/

/-- `fragmented_buffer::locate`: the fragment an offset lies in, and where in it. -/
def locate : List (Fragment Window) → Nat → Nat × Nat
  | [], skip => (0, skip)
  | fragment :: more, skip =>
    if skip ≥ fragment.size then
      let found := locate more (skip - fragment.size)
      (found.1 + 1, found.2)
    else (0, skip)

/-- `fragmented_buffer::share`, of a part. -/
def Buffer.share (buffer : Buffer Window) (offset length : Nat) : Except Errc (Buffer Window) :=
  if offset + length > buffer.size then .error .outOfRange
  else if length = 0 then .ok {}
  else
    let found := locate buffer.fragments offset
    buffer.shareFrom found.1 found.2 length

/-- `deep_copy_allocation_size`: exact up to 16 KiB, then powers of two up to the largest allocation. -/
def deepCopyAllocationSize (remaining : Nat) : Nat :=
  if remaining ≤ 16384 then remaining else min (2 ^ Nat.log2 remaining) maximumContiguousAllocationBytes

/-- The inner loop of `copy`: so many bytes from an offset into the first fragment on, and where it stops. -/
def gather (memory : Memory) : List (Fragment Window) → Nat → Nat → List UInt8 × List (Fragment Window) × Nat
  | [], offset, _ => ([], [], offset)
  | fragment :: more, offset, count =>
    if count = 0 then ([], fragment :: more, offset)
    else
      let span := min (fragment.size - offset) count
      let piece := ((memory.read fragment.storage).drop offset).take span
      if offset + span = fragment.size then
        let rest := gather memory more 0 (count - span)
        (piece ++ rest.1, rest.2)
      else (piece, fragment :: more, offset + span)

theorem deepCopyAllocationSize_pos {remaining : Nat} (h : remaining ≠ 0) :
    0 < deepCopyAllocationSize remaining := by
  unfold deepCopyAllocationSize
  split
  · exact Nat.pos_of_ne_zero h
  · exact Nat.lt_min.mpr ⟨Nat.two_pow_pos _, by decide⟩

/-- The loop of `copy`: `minimum` is the least chunk that keeps the number of fragments bounded. -/
def copyLoop (minimum : Nat) (memory : Memory) (source : List (Fragment Window)) (offset remaining : Nat)
    (copied : List (Fragment Window)) : Memory × List (Fragment Window) :=
  if h : remaining = 0 then (memory, copied)
  else
    let allocation := min remaining (max (deepCopyAllocationSize remaining) minimum)
    let gathered := gather memory source offset allocation
    have : 0 < deepCopyAllocationSize remaining := deepCopyAllocationSize_pos h
    copyLoop minimum (memory.allocate gathered.1) gathered.2.1 gathered.2.2 (remaining - allocation)
      (copied ++ [⟨⟨memory.length, 0, allocation⟩, allocation⟩])
termination_by remaining

/-- `fragmented_buffer::copy`. -/
def Buffer.copy (memory : Memory) (buffer : Buffer Window) : Memory × Buffer Window :=
  if buffer.size = 0 then (memory, {})
  else
    let minimum := buffer.size / maxBufferFragments + if buffer.size % maxBufferFragments ≠ 0 then 1 else 0
    let copied := copyLoop minimum memory buffer.fragments 0 buffer.size []
    (copied.1, { fragments := copied.2, size := buffer.size, retainedBytes := buffer.size })

/-- The largest generation: presentation numbers are never used again. -/
def maxGeneration : Nat := 2 ^ 64 - 1

/-- `invalidate_presentation`. -/
def Buffer.invalidate (buffer : Buffer Window) : Buffer Window :=
  { buffer with generation := if buffer.generation ≠ maxGeneration then buffer.generation + 1
      else buffer.generation }

/-- The loop of both trims, over the fragments from the end that is trimmed: those that are left, and what the
    dropped ones kept alive. `cut` is what is left of a fragment that loses so many bytes. -/
def trimLoop (cut : Fragment Window → Nat → Fragment Window) :
    List (Fragment Window) → Nat → List (Fragment Window) × Nat
  | [], _ => ([], 0)
  | fragment :: more, remaining =>
    if remaining = 0 then (fragment :: more, 0)
    else if remaining ≥ fragment.size then
      let rest := trimLoop cut more (remaining - fragment.size)
      (rest.1, fragment.retainedBytes + rest.2)
    else (cut fragment remaining :: more, 0)

/-- `temporary_buffer::trim_front`. -/
def Fragment.trimFront (fragment : Fragment Window) (bytes : Nat) : Fragment Window :=
  fragment.share bytes (fragment.size - bytes)

/-- `temporary_buffer::trim`, by what is lost. -/
def Fragment.trimBack (fragment : Fragment Window) (bytes : Nat) : Fragment Window :=
  fragment.share 0 (fragment.size - bytes)

/-- A buffer that presents other fragments of its own. -/
def Buffer.represent (buffer : Buffer Window) (fragments : List (Fragment Window)) (bytes released : Nat) :
    Buffer Window :=
  Buffer.invalidate { buffer with
    fragments, size := buffer.size - bytes, retainedBytes := buffer.retainedBytes - released }

/-- `trim_front`. -/
def Buffer.trimFront (buffer : Buffer Window) (bytes : Nat) : Except Errc Unit × Buffer Window :=
  if bytes > buffer.size then (.error .outOfRange, buffer)
  else if bytes = 0 then (.ok (), buffer)
  else
    let trimmed := trimLoop Fragment.trimFront buffer.fragments bytes
    (.ok (), buffer.represent trimmed.1 bytes trimmed.2)

/-- `trim_back`. -/
def Buffer.trimBack (buffer : Buffer Window) (bytes : Nat) : Except Errc Unit × Buffer Window :=
  if bytes > buffer.size then (.error .outOfRange, buffer)
  else if bytes = 0 then (.ok (), buffer)
  else
    let trimmed := trimLoop Fragment.trimBack buffer.fragments.reverse bytes
    (.ok (), buffer.represent trimmed.1.reverse bytes trimmed.2)

/-- `scatter_cursor`. The buffer it is bound to is named by its slot. -/
structure ScatterCursor where
  owner : Option Nat := none
  generation : Nat := 0
  fragment : Nat := 0
  offset : Nat := 0
  deriving DecidableEq

/-- `max_scatter_vectors`. -/
def maxScatterVectors : Nat := 1024

/-- `scatter_batch`. -/
structure ScatterBatch where
  segments : List Window
  bytes : Nat
  complete : Bool
  deriving DecidableEq

/-- The loop of `export_scatter`: the fragment it is at, the offset into it and the bytes it may yet export.
    A fragment that is exported in part uses up the budget, which ends the loop. -/
def exportLoop (capacity : Nat) : List (Fragment Window) → (index offset budget : Nat) →
    (segments : List Window) → (bytes : Nat) → Except Errc (Nat × Nat × List Window × Nat)
  | [], index, offset, _, segments, bytes => .ok (index, offset, segments, bytes)
  | fragment :: more, index, offset, budget, segments, bytes =>
    if segments.length < capacity ∧ 0 < budget then
      if offset > fragment.size then .error .outOfRange
      else if fragment.size - offset = 0 then
        exportLoop capacity more (index + 1) 0 budget segments bytes
      else
        let span := min (fragment.size - offset) budget
        let exported := segments ++ [Storage.share fragment.storage offset span]
        if offset + span = fragment.size then
          exportLoop capacity more (index + 1) 0 (budget - span) exported (bytes + span)
        else .ok (index, offset + span, exported, bytes + span)
    else .ok (index, offset, segments, bytes)

/-- `export_scatter`, of the buffer in a slot. -/
def Buffer.exportScatter (buffer : Buffer Window) (slot maxVectors maxBytes : Nat) (cursor : ScatterCursor) :
    Except Errc (ScatterBatch × ScatterCursor) :=
  if maxVectors = 0 ∨ maxBytes = 0 then .error .invalidArgument
  else if cursor.owner ≠ none ∧ (cursor.owner ≠ some slot ∨ cursor.generation ≠ buffer.generation) then
    .error .invalidArgument
  else if buffer.generation = maxGeneration then .error .resourceExhausted
  else if cursor.fragment > buffer.fragments.length
      ∨ (cursor.fragment = buffer.fragments.length ∧ cursor.offset ≠ 0) then .error .outOfRange
  else
    match exportLoop (min maxVectors maxScatterVectors) (buffer.fragments.drop cursor.fragment) cursor.fragment
      cursor.offset maxBytes [] 0 with
    | .error e => .error e
    | .ok (index, offset, segments, bytes) =>
      .ok (⟨segments, bytes, index = buffer.fragments.length⟩,
        { owner := some slot, generation := buffer.generation, fragment := index, offset })

/-! ## Parts of windows -/

/-- One window lies inside another. -/
structure Window.Part (part whole : Window) : Prop where
  block : part.block = whole.block
  stop : part.start + part.length ≤ whole.start + whole.length

theorem Window.Part.refl {window : Window} : window.Part window := ⟨rfl, Nat.le_refl _⟩

theorem Window.Part.apart {b : Builder} {part whole : Window} (h : part.Part whole) (hapart : b.Apart whole) :
    b.Apart part := by
  intro block start hslack hblock
  exact h.stop.trans (hapart block start hslack (h.block.symm.trans hblock))

variable {memory : Memory}

theorem Window.Part.valid {part whole : Window} (h : part.Part whole) (hvalid : memory.Valid whole)
    : memory.Valid part where
  block := h.block ▸ hvalid.block
  fits := h.block ▸ h.stop.trans hvalid.fits

theorem Fragment.part {fragment : Fragment Window} {skip take : Nat} (h : skip + take ≤ fragment.size) :
    (fragment.share skip take).storage.Part fragment.storage where
  block := rfl
  stop := by
    change fragment.storage.start + skip + take ≤ _
    have hsize : fragment.size = fragment.storage.length := rfl
    omega

/-- Every fragment is a part of one of some others. -/
def PartsOf (parts fragments : List (Fragment Window)) : Prop :=
  ∀ part ∈ parts, ∃ fragment ∈ fragments, part.storage.Part fragment.storage

variable {fragments : List (Fragment Window)}

theorem PartsOf.refl : PartsOf fragments fragments :=
  fun part hmem => ⟨part, hmem, Window.Part.refl⟩

theorem PartsOf.cons {parts fragments : List (Fragment Window)} {part fragment : Fragment Window}
    (h : PartsOf parts fragments) (hpart : part.storage.Part fragment.storage) :
    PartsOf (part :: parts) (fragment :: fragments) := by
  intro other hmem
  rcases List.mem_cons.mp hmem with rfl | hmem
  · exact ⟨fragment, List.mem_cons_self .., hpart⟩
  · obtain ⟨whole, hwhole, hinside⟩ := h other hmem
    exact ⟨whole, List.mem_cons_of_mem _ hwhole, hinside⟩

theorem PartsOf.more {parts fragments : List (Fragment Window)} {fragment : Fragment Window}
    (h : PartsOf parts fragments) : PartsOf parts (fragment :: fragments) := by
  intro part hmem
  obtain ⟨whole, hwhole, hinside⟩ := h part hmem
  exact ⟨whole, List.mem_cons_of_mem _ hwhole, hinside⟩

theorem carve_parts {skip remaining : Nat} (hwithin : Within fragments skip)
    (h : ∀ fragment ∈ fragments, fragment.Sound) :
    PartsOf (carve fragments skip remaining) fragments := by
  induction fragments generalizing skip remaining with
  | nil => exact fun part hmem => by cases hmem
  | cons fragment more ih =>
    have hmore : ∀ other ∈ more, other.Sound := fun other hmem => h other (List.mem_cons_of_mem _ hmem)
    have hlt : skip < fragment.size := hwithin
    rw [carve]
    split
    next => exact fun part hmem => by cases hmem
    next => exact (ih (Within.zero hmore) hmore).cons (Fragment.part (by omega))

/-- A buffer that was made of parts of some fragments. -/
structure Buffer.Viewed (memory : Memory) (fragments : List (Fragment Window)) (result : Buffer Window)
    (bytes : List UInt8) : Prop where
  lies : result.Lies memory
  content : result.content memory = bytes
  parts : PartsOf result.fragments fragments

theorem Buffer.Viewed.empty :
    Buffer.Viewed memory fragments {} [] := ⟨⟨Buffer.Sound.empty, nofun⟩, rfl, nofun⟩

theorem Buffer.shareWhole_fragments {buffer : Buffer Window} :
    buffer.shareWhole.fragments = buffer.fragments := by
  unfold Buffer.shareWhole
  exact (List.map_congr_left fun _ _ => rfl).trans (List.map_id _)

section Shares

variable {memory : Memory} {buffer : Buffer Window}

theorem Buffer.Lies.readable (h : buffer.Lies memory) : Readable memory.read buffer.fragments :=
  fun fragment hmem => (h.windows fragment hmem).read_length

theorem Buffer.Lies.shareWhole (h : buffer.Lies memory) :
    Buffer.Viewed memory buffer.fragments buffer.shareWhole (buffer.content memory) where
  lies := ⟨h.sound.shareWhole, by
    rw [Buffer.shareWhole_fragments]
    exact h.windows⟩
  content := by
    unfold Buffer.content
    rw [Buffer.shareWhole_fragments]
  parts := by
    rw [Buffer.shareWhole_fragments]
    exact PartsOf.refl

/-- An offset before the end of some fragments lies in one of them. -/
theorem locate_spec {fragments : List (Fragment Window)} {skip : Nat} (hlt : skip < sizes fragments) :
    Within (fragments.drop (locate fragments skip).1) (locate fragments skip).2
    ∧ sizes (fragments.take (locate fragments skip).1) + (locate fragments skip).2 = skip := by
  induction fragments generalizing skip with
  | nil => exact absurd hlt (Nat.not_lt_zero _)
  | cons fragment more ih =>
    rw [sizes_cons] at hlt
    rw [locate]
    split
    next hpast =>
      obtain ⟨hwithin, hsum⟩ := @ih (skip - fragment.size) (by omega)
      refine ⟨hwithin, ?_⟩
      dsimp only
      rw [List.take_succ_cons, sizes_cons]
      omega
    next hinside => exact ⟨Nat.lt_of_not_le hinside, Nat.zero_add _⟩

theorem Buffer.Lies.share (h : buffer.Lies memory) {offset length : Nat} {shared : Buffer Window}
    (hshared : buffer.share offset length = .ok shared) : Buffer.Viewed memory buffer.fragments shared
      (((buffer.content memory).drop offset).take length) := by
  unfold Buffer.share at hshared
  split at hshared
  next => cases hshared
  next hrange =>
    split at hshared
    next hzero =>
      cases hshared
      rw [hzero, List.take_zero]
      exact Buffer.Viewed.empty
    next hsome =>
      have hsize := h.sound.size
      obtain ⟨hwithin, hsum⟩ := @locate_spec buffer.fragments offset (by omega)
      dsimp only at hshared
      generalize hfound : locate buffer.fragments offset = found at hshared hwithin hsum
      have hsplit := @sizes_split _ _ buffer.fragments found.1
      by_cases hwhole : found.1 = 0 ∧ found.2 = 0 ∧ length = buffer.size
      · unfold Buffer.shareFrom at hshared
        rw [if_pos hwhole] at hshared
        cases hshared
        obtain ⟨hfirst, hsecond, hlength⟩ := hwhole
        have hoffset : offset = 0 := by
          rw [hfirst, hsecond] at hsum
          exact hsum.symm
        rw [hoffset, List.drop_zero, hlength, h.size_eq, List.take_length]
        exact h.shareWhole
      · rw [Buffer.shareFrom_eq h.sound hwithin (by omega) hwhole] at hshared
        cases hshared
        have hsound : ∀ fragment ∈ buffer.fragments.drop found.1, fragment.Sound :=
          fun fragment hmem => h.sound.fragments fragment (List.mem_of_mem_drop hmem)
        have hread : Readable memory.read (buffer.fragments.drop found.1) :=
          fun fragment hmem => h.readable fragment (List.mem_of_mem_drop hmem)
        have hparts : PartsOf (carve (buffer.fragments.drop found.1) found.2 length) buffer.fragments := by
          intro part hmem
          obtain ⟨whole, hof, hinside⟩ := carve_parts hwithin hsound part hmem
          exact ⟨whole, List.mem_of_mem_drop hof, hinside⟩
        refine ⟨⟨h.sound.carved hwithin (by omega), ?_⟩, ?_, hparts⟩
        · intro part hmem
          obtain ⟨whole, hof, hinside⟩ := hparts part hmem
          exact hinside.valid (h.windows whole hof)
        · have hplaced := hwithin.placed hread
          have hbefore : (contents memory.read (buffer.fragments.take found.1)).flatten.length
              = sizes (buffer.fragments.take found.1) :=
            (Readable.sizes_eq fun fragment hmem => h.readable fragment (List.mem_of_mem_take hmem)).symm
          have hcontent : buffer.content memory = (contents memory.read (buffer.fragments.take found.1)).flatten
              ++ (contents memory.read (buffer.fragments.drop found.1)).flatten := by
            unfold Buffer.content contents
            rw [← List.flatten_append, ← List.map_append, List.take_append_drop]
          unfold Buffer.content at hcontent ⊢
          dsimp only
          rw [contents_carve memory.read_shares hread hwithin hsound, Fragments.cut_flatten hplaced.inside,
            hcontent, ← hsum, ← hbefore, List.drop_length_add_append]
          rfl

end Shares

/-! ## Trimming -/

theorem contents_cons {fragment : Fragment Window} {more : List (Fragment Window)} :
    (contents memory.read (fragment :: more)).flatten
      = memory.read fragment.storage ++ (contents memory.read more).flatten := rfl

/-- What is left of a fragment that loses some of its bytes at an end. -/
structure Cuts (cut : Fragment Window → Nat → Fragment Window) : Prop where
  size : ∀ fragment bytes, (cut fragment bytes).size = fragment.size - bytes
  part : ∀ fragment bytes, bytes ≤ fragment.size → (cut fragment bytes).storage.Part fragment.storage
  retained : ∀ fragment bytes, (cut fragment bytes).retainedBytes = fragment.retainedBytes

theorem cuts_trimFront : Cuts Fragment.trimFront where
  size _ _ := rfl
  part _ _ h := Fragment.part (by omega)
  retained _ _ := rfl

theorem cuts_trimBack : Cuts Fragment.trimBack where
  size _ _ := rfl
  part _ _ _ := Fragment.part (by omega)
  retained _ _ := rfl

/-- The fragments a trim leaves, whichever end it starts from. -/
theorem trimLoop_spec {cut : Fragment Window → Nat → Fragment Window} (hcut : Cuts cut) (remaining : Nat)
    (h : ∀ fragment ∈ fragments, fragment.Sound) :
    let trimmed := trimLoop cut fragments remaining
    sizes trimmed.1 = sizes fragments - remaining ∧ backing trimmed.1 + trimmed.2 = backing fragments
      ∧ (∀ fragment ∈ trimmed.1, fragment.Sound) ∧ trimmed.1.length ≤ fragments.length
      ∧ PartsOf trimmed.1 fragments := by
  induction fragments generalizing remaining with
  | nil => exact ⟨(Nat.zero_sub _).symm, rfl, nofun, Nat.le_refl _, nofun⟩
  | cons fragment more ih =>
    have hmore : ∀ other ∈ more, other.Sound := fun other hmem => h other (List.mem_cons_of_mem _ hmem)
    have hfirst := h fragment (List.mem_cons_self ..)
    dsimp only
    rw [trimLoop]
    split
    next hzero =>
      rw [hzero]
      exact ⟨(Nat.sub_zero _).symm, rfl, h, Nat.le_refl _, PartsOf.refl⟩
    next hsome =>
      split
      next hpast =>
        obtain ⟨hsizes, hbacking, hsound, hlength, hparts⟩ := ih (remaining - fragment.size) hmore
        refine ⟨?_, ?_, hsound, hlength.trans (Nat.le_succ _), hparts.more⟩
        · rw [sizes_cons]
          dsimp only
          omega
        · rw [backing_cons]
          dsimp only
          omega
      next hinside =>
        have hsize := hcut.size fragment remaining
        have hretained := hcut.retained fragment remaining
        have hheld := hfirst.held
        refine ⟨?_, ?_, ?_, Nat.le_refl _, PartsOf.refl.cons (hcut.part fragment remaining (by omega))⟩
        · rw [sizes_cons, sizes_cons]
          omega
        · rw [backing_cons, backing_cons]
          omega
        · refine List.forall_mem_cons.mpr ⟨⟨?_, ?_⟩, hmore⟩ <;> omega

theorem trimFront_content (remaining : Nat) (hread : Readable memory.read fragments)
    (hle : remaining ≤ sizes fragments) :
    (contents memory.read (trimLoop Fragment.trimFront fragments remaining).1).flatten
      = (contents memory.read fragments).flatten.drop remaining := by
  induction fragments generalizing remaining with
  | nil => exact (List.drop_nil).symm
  | cons fragment more ih =>
    have hmore : Readable memory.read more := fun other hmem => hread other (List.mem_cons_of_mem _ hmem)
    have hlength := hread fragment (List.mem_cons_self ..)
    rw [sizes_cons] at hle
    rw [trimLoop]
    split
    next hzero => rw [hzero, List.drop_zero]
    next hsome =>
      rw [contents_cons, List.drop_append, hlength]
      split
      next hpast =>
        rw [List.drop_eq_nil_of_le (by omega), List.nil_append]
        exact ih _ hmore (by omega)
      next hinside =>
        have hpart := memory.read_shares fragment.storage remaining (fragment.size - remaining)
          (show remaining + (fragment.size - remaining) ≤ fragment.size by omega)
        have hnone : remaining - fragment.size = 0 := by omega
        rw [contents_cons, hnone, List.drop_zero]
        congr 1
        refine hpart.trans (List.take_of_length_le ?_)
        rw [List.length_drop]
        omega

/-- Trimming from the last fragment on, the fragments given in reverse. -/
theorem trimBack_content (remaining : Nat) (hread : Readable memory.read fragments)
    (hle : remaining ≤ sizes fragments) :
    (contents memory.read (trimLoop Fragment.trimBack fragments remaining).1.reverse).flatten
      = (contents memory.read fragments.reverse).flatten.take (sizes fragments - remaining) := by
  induction fragments generalizing remaining with
  | nil => exact (List.take_nil).symm
  | cons fragment more ih =>
    have hmore : Readable memory.read more := fun other hmem => hread other (List.mem_cons_of_mem _ hmem)
    have hlength := hread fragment (List.mem_cons_self ..)
    have hbefore : (contents memory.read more.reverse).flatten.length = sizes more := by
      have hback : Readable memory.read more.reverse :=
        fun other hmem => hmore other (List.mem_reverse.mp hmem)
      rw [← hback.sizes_eq]
      unfold sizes
      rw [List.map_reverse, List.sum_reverse]
    rw [sizes_cons] at hle ⊢
    rw [trimLoop, List.reverse_cons, Builder.content_append, List.take_append, hbefore]
    split
    next hzero =>
      rw [hzero, List.reverse_cons, Builder.content_append, List.take_of_length_le (by omega),
        List.take_of_length_le (by omega)]
    next hsome =>
      split
      next hpast =>
        have hleft : sizes more - (remaining - fragment.size) = fragment.size + sizes more - remaining := by
          omega
        have hnone : fragment.size + sizes more - remaining - sizes more = 0 := by omega
        rw [hnone, List.take_zero, List.append_nil, ← hleft]
        exact ih _ hmore (by omega)
      next hinside =>
        have hpart := memory.read_shares fragment.storage 0 (fragment.size - remaining)
          (show 0 + (fragment.size - remaining) ≤ fragment.size by omega)
        have hleft : fragment.size + sizes more - remaining - sizes more = fragment.size - remaining := by
          omega
        rw [List.reverse_cons, Builder.content_append, List.take_of_length_le (by omega), hleft]
        congr 1

section Trims

variable {memory : Memory} {buffer : Buffer Window}

/-- A buffer that presents what a trim leaves of it. -/
theorem Buffer.Lies.represent (h : buffer.Lies memory) {fragments : List (Fragment Window)}
    {bytes released : Nat} {rest : List UInt8} (hsizes : sizes fragments = sizes buffer.fragments - bytes)
    (hbacking : backing fragments + released = backing buffer.fragments)
    (hsound : ∀ fragment ∈ fragments, fragment.Sound) (hlength : fragments.length ≤ buffer.fragments.length)
    (hparts : PartsOf fragments buffer.fragments) (hcontent : (contents memory.read fragments).flatten = rest) :
    Buffer.Viewed memory buffer.fragments (buffer.represent fragments bytes released) rest where
  lies := by
    have hsize := h.sound.size
    have hretained := h.sound.retained
    have hbounded := h.sound.bounded
    refine ⟨⟨?_, ?_, hsound, hlength.trans h.sound.few, ?_⟩, ?_⟩
    · change buffer.size - bytes = sizes fragments
      omega
    · change buffer.retainedBytes - released = backing fragments
      omega
    · exact (Nat.sub_le _ _).trans hbounded
    · intro part hmem
      obtain ⟨whole, hof, hinside⟩ := hparts part hmem
      exact hinside.valid (h.windows whole hof)
  content := hcontent
  parts := hparts

/-- **Trimming the front** drops bytes, or is refused and changes nothing. -/
theorem Buffer.Lies.trimFront (h : buffer.Lies memory) (bytes : Nat) :
    (∃ e, buffer.trimFront bytes = (.error e, buffer))
    ∨ ∃ trimmed, buffer.trimFront bytes = (.ok (), trimmed)
      ∧ Buffer.Viewed memory buffer.fragments trimmed ((buffer.content memory).drop bytes)
      ∧ (trimmed = buffer ∨ trimmed.generation = buffer.invalidate.generation) := by
  unfold Buffer.trimFront
  by_cases hrange : bytes > buffer.size
  · rw [if_pos hrange]
    exact .inl ⟨_, rfl⟩
  rw [if_neg hrange]
  by_cases hzero : bytes = 0
  · rw [if_pos hzero, hzero]
    exact .inr ⟨buffer, rfl, ⟨h, rfl, PartsOf.refl⟩, .inl rfl⟩
  rw [if_neg hzero]
  have hsize := h.sound.size
  obtain ⟨hsizes, hbacking, hsound, hlength, hparts⟩ :=
    trimLoop_spec cuts_trimFront bytes h.sound.fragments
  exact .inr ⟨_, rfl, h.represent hsizes hbacking hsound hlength hparts
    (trimFront_content bytes h.readable (by omega)), .inr rfl⟩

/-- **Trimming the back** keeps the bytes before, or is refused and changes nothing. -/
theorem Buffer.Lies.trimBack (h : buffer.Lies memory) (bytes : Nat) :
    (∃ e, buffer.trimBack bytes = (.error e, buffer))
    ∨ ∃ trimmed, buffer.trimBack bytes = (.ok (), trimmed)
      ∧ Buffer.Viewed memory buffer.fragments trimmed
        ((buffer.content memory).take ((buffer.content memory).length - bytes))
      ∧ (trimmed = buffer ∨ trimmed.generation = buffer.invalidate.generation) := by
  unfold Buffer.trimBack
  by_cases hrange : bytes > buffer.size
  · rw [if_pos hrange]
    exact .inl ⟨_, rfl⟩
  rw [if_neg hrange]
  by_cases hzero : bytes = 0
  · rw [if_pos hzero, hzero]
    refine .inr ⟨buffer, rfl, ⟨h, ?_, PartsOf.refl⟩, .inl rfl⟩
    rw [Nat.sub_zero, List.take_length]
  rw [if_neg hzero]
  have hsize := h.sound.size
  have hreverse : sizes buffer.fragments.reverse = sizes buffer.fragments := by
    unfold sizes
    rw [List.map_reverse, List.sum_reverse]
  have hback : backing buffer.fragments.reverse = backing buffer.fragments := by
    unfold backing
    rw [List.map_reverse, List.sum_reverse]
  have hread : Readable memory.read buffer.fragments.reverse :=
    fun fragment hmem => h.readable fragment (List.mem_reverse.mp hmem)
  obtain ⟨hsizes, hbacking, hsound, hlength, hparts⟩ := trimLoop_spec cuts_trimBack bytes
    (fun fragment hmem => h.sound.fragments fragment (List.mem_reverse.mp hmem) :
      ∀ fragment ∈ buffer.fragments.reverse, fragment.Sound)
  have hcontent := trimBack_content bytes hread (by omega)
  rw [List.reverse_reverse, hreverse, ← hsize, h.size_eq] at hcontent
  refine .inr ⟨_, rfl, h.represent ?_ ?_ ?_ ?_ ?_ hcontent, .inr rfl⟩
  · unfold sizes at hsizes hreverse ⊢
    rw [List.map_reverse, List.sum_reverse]
    omega
  · unfold backing at hbacking hback ⊢
    rw [List.map_reverse, List.sum_reverse]
    omega
  · exact fun fragment hmem => hsound fragment (List.mem_reverse.mp hmem)
  · rw [List.length_reverse] at hlength ⊢
    exact hlength
  · intro part hmem
    obtain ⟨whole, hof, hinside⟩ := hparts part (List.mem_reverse.mp hmem)
    exact ⟨whole, List.mem_reverse.mp hof, hinside⟩

end Trims

/-! ## Copying -/

/-- **Gathering** so many bytes gives what is at the place, and stops behind them. -/
theorem gather_spec {source : List (Fragment Window)} {offset count : Nat}
    (hread : Readable memory.read source) (hinside : Fragments.Inside (contents memory.read source) offset)
    (hle : count ≤ (Fragments.rest (contents memory.read source) offset).length) :
    let gathered := gather memory source offset count
    gathered.1 = (Fragments.rest (contents memory.read source) offset).take count
      ∧ gathered.2.1 <:+ source
      ∧ Fragments.Inside (contents memory.read gathered.2.1) gathered.2.2
      ∧ Fragments.rest (contents memory.read gathered.2.1) gathered.2.2
        = (Fragments.rest (contents memory.read source) offset).drop count := by
  induction source generalizing offset count with
  | nil =>
    have hnone : ∀ skip, Fragments.rest (contents memory.read []) skip = [] := fun skip => List.drop_nil
    refine ⟨?_, List.suffix_rfl, trivial, ?_⟩
    · rw [hnone, List.take_nil]
      rfl
    · rw [hnone offset, List.drop_nil]
      exact hnone _
  | cons fragment more ih =>
    have hmore : Readable memory.read more := fun other hmem => hread other (List.mem_cons_of_mem _ hmem)
    have hlength : (memory.read fragment.storage).length = fragment.size :=
      hread fragment (List.mem_cons_self ..)
    have hcontents : contents memory.read (fragment :: more)
        = memory.read fragment.storage :: contents memory.read more := rfl
    have hoffset : offset ≤ (memory.read fragment.storage).length := hinside
    have hdropped : ((memory.read fragment.storage).drop offset).length = fragment.size - offset := by
      rw [List.length_drop, hlength]
    rw [hcontents, Fragments.rest_cons hoffset] at hle ⊢
    rw [List.length_append, hdropped] at hle
    dsimp only
    rw [gather]
    split
    next hzero =>
      rw [hzero]
      refine ⟨rfl, List.suffix_rfl, hinside, ?_⟩
      rw [hcontents, Fragments.rest_cons hoffset]
      rfl
    next hsome =>
      dsimp only
      split
      next hends =>
        have hspan : min (fragment.size - offset) count = fragment.size - offset := by omega
        obtain ⟨hbytes, hsuffix, hplace, hrest⟩ := @ih 0 (count - (fragment.size - offset)) hmore
          Fragments.Inside.zero (by omega)
        rw [hspan]
        refine ⟨?_, hsuffix.trans (List.suffix_cons _ _), hplace, ?_⟩
        · have hall : ∀ most, fragment.size - offset ≤ most → ((memory.read fragment.storage).drop offset).take most
              = (memory.read fragment.storage).drop offset :=
            fun most hmost => List.take_of_length_le (hdropped.trans_le hmost)
          dsimp only
          rw [hbytes, List.take_append, hdropped, hall _ (Nat.le_refl _), hall count (by omega)]
        · have hnone : ((memory.read fragment.storage).drop offset).drop count = [] :=
            List.drop_eq_nil_of_le (by omega)
          rw [hrest, List.drop_append, hdropped, hnone, List.nil_append]
      next hstays =>
        have hspan : min (fragment.size - offset) count = count := by omega
        rw [hspan]
        have hwithin : offset + count ≤ (memory.read fragment.storage).length := by omega
        refine ⟨?_, List.suffix_rfl, hwithin, ?_⟩
        · rw [List.take_append_of_le_length (by omega)]
        · rw [hcontents, Fragments.rest_cons hwithin, List.drop_append_of_le_length (by omega), List.drop_drop]

/-- The windows of some blocks that were allocated one after another, whole. -/
def placed (base : Nat) : List (List UInt8) → List (Fragment Window)
  | [] => []
  | chunk :: more => ⟨⟨base, 0, chunk.length⟩, chunk.length⟩ :: placed (base + 1) more

/-- **The loop of a copy** cuts what remains into chunks, each in a block of its own: no more of them than the
    least chunk allows. -/
theorem copyLoop_spec {minimum remaining offset count : Nat} {memory : Memory}
    {source copied : List (Fragment Window)} (hvalid : ∀ fragment ∈ source, memory.Valid fragment.storage)
    (hinside : Fragments.Inside (contents memory.read source) offset)
    (hremaining : remaining = (Fragments.rest (contents memory.read source) offset).length)
    (hcount : remaining ≤ count * minimum) :
    ∃ chunks, copyLoop minimum memory source offset remaining copied
        = (memory ++ chunks, copied ++ placed memory.length chunks)
      ∧ chunks.flatten = Fragments.rest (contents memory.read source) offset
      ∧ (∀ chunk ∈ chunks, 0 < chunk.length) ∧ chunks.length ≤ count := by
  induction count generalizing remaining offset memory source copied with
  | zero =>
    have hzero : remaining = 0 := by omega
    refine ⟨[], ?_, ?_, nofun, Nat.le_refl _⟩
    · rw [copyLoop, dif_pos hzero, List.append_nil]
      exact congrArg (memory, ·) (List.append_nil _).symm
    · exact (List.length_eq_zero_iff.mp (hremaining.symm.trans hzero)).symm
  | succ count ih =>
    by_cases hzero : remaining = 0
    · refine ⟨[], ?_, ?_, nofun, Nat.zero_le _⟩
      · rw [copyLoop, dif_pos hzero, List.append_nil]
        exact congrArg (memory, ·) (List.append_nil _).symm
      · exact (List.length_eq_zero_iff.mp (hremaining.symm.trans hzero)).symm
    have hpos := deepCopyAllocationSize_pos hzero
    rw [copyLoop, dif_neg hzero]
    dsimp only
    obtain ⟨allocation, hallocation⟩ : ∃ allocation,
        min remaining (max (deepCopyAllocationSize remaining) minimum) = allocation := ⟨_, rfl⟩
    rw [hallocation]
    have hread : Readable memory.read source := fun fragment hmem => (hvalid fragment hmem).read_length
    obtain ⟨hbytes, hsuffix, hplace, hrest⟩ := gather_spec hread hinside
      (show allocation ≤ _ by omega)
    generalize gather memory source offset allocation = gathered at hbytes hsuffix hplace hrest
    have hlength : gathered.1.length = allocation := by
      rw [hbytes, List.length_take]
      omega
    have hkept : ∀ fragment ∈ gathered.2.1, memory.Valid fragment.storage :=
      fun fragment hmem => hvalid fragment (hsuffix.mem hmem)
    have hsame : contents (memory.allocate gathered.1).read gathered.2.1
        = contents memory.read gathered.2.1 :=
      List.map_congr_left fun fragment hmem => Memory.read_allocate_of_valid (hkept fragment hmem)
    have hcovered : remaining - allocation ≤ count * minimum := by
      rw [Nat.succ_mul] at hcount
      omega
    obtain ⟨chunks, hloop, hflatten, hnonempty, hfew⟩ := @ih (remaining - allocation) gathered.2.2
      (memory.allocate gathered.1) gathered.2.1
      (copied ++ [⟨⟨memory.length, 0, allocation⟩, allocation⟩])
      (fun fragment hmem => (hkept fragment hmem).keeps Memory.keeps_allocate) (hsame ▸ hplace)
      (by rw [hsame, hrest, List.length_drop]; omega) hcovered
    refine ⟨gathered.1 :: chunks, ?_, ?_, ?_, Nat.succ_le_succ hfew⟩
    · rw [hloop]
      unfold Memory.allocate
      rw [List.append_assoc, List.append_assoc, List.length_append, ← hlength]
      rfl
    · rw [List.flatten_cons, hflatten, hsame, hrest, hbytes, List.take_append_drop]
    · exact List.forall_mem_cons.mpr ⟨by omega, hnonempty⟩

/-- Blocks that were allocated in a row, read back through their windows. -/
theorem placed_spec {memory : Memory} {chunks : List (List UInt8)} (h : ∀ chunk ∈ chunks, 0 < chunk.length) :
    contents (memory ++ chunks : Memory).read (placed memory.length chunks) = chunks
      ∧ (∀ fragment ∈ placed memory.length chunks, fragment.Sound ∧ memory.length ≤ fragment.storage.block
        ∧ (memory ++ chunks : Memory).Valid fragment.storage)
      ∧ sizes (placed memory.length chunks) = chunks.flatten.length
      ∧ backing (placed memory.length chunks) = chunks.flatten.length
      ∧ (placed memory.length chunks).length = chunks.length := by
  induction chunks generalizing memory with
  | nil => exact ⟨rfl, nofun, rfl, rfl, rfl⟩
  | cons chunk more ih =>
    obtain ⟨hpos, hmore⟩ := List.forall_mem_cons.mp h
    obtain ⟨hcontents, hfragments, hsizes, hbacking, hlength⟩ := @ih (memory.allocate chunk) hmore
    have hmemory : (memory ++ chunk :: more : Memory) = memory.allocate chunk ++ more :=
      (List.append_cons memory chunk more)
    have hbase : (memory.allocate chunk).length = memory.length + 1 := List.length_append
    have hkeeps : ∀ window, (memory.allocate chunk).Valid window →
        Memory.Valid (memory.allocate chunk ++ more) window
          ∧ Memory.read (memory.allocate chunk ++ more) window = (memory.allocate chunk).read window := by
      intro window hvalid
      have hblock : Memory.blockAt (memory.allocate chunk ++ more) window.block
          = (memory.allocate chunk).blockAt window.block := by
        unfold Memory.blockAt
        rw [List.getElem?_append_left hvalid.block]
      refine ⟨⟨?_, ?_⟩, ?_⟩
      · rw [List.length_append]
        exact Nat.lt_add_right _ hvalid.block
      · rw [hblock]
        exact hvalid.fits
      · unfold Memory.read
        rw [hblock]
    obtain ⟨hvalid, hread⟩ := hkeeps _ (@Memory.valid_allocate memory chunk)
    rw [hbase] at hcontents hfragments hsizes hbacking hlength
    rw [hmemory]
    refine ⟨?_, ?_, ?_, ?_, ?_⟩
    · change _ :: contents _ (placed (memory.length + 1) more) = _
      rw [hcontents]
      exact congrArg (· :: more) (hread.trans Memory.read_allocate)
    · refine List.forall_mem_cons.mpr ⟨⟨⟨hpos, Nat.le_refl _⟩, Nat.le_refl _, hvalid⟩, ?_⟩
      intro fragment hmem
      obtain ⟨hsound, hlater, hlies⟩ := hfragments fragment hmem
      exact ⟨hsound, by omega, hlies⟩
    · rw [placed, sizes_cons, hsizes, List.flatten_cons, List.length_append]
      rfl
    · rw [placed, backing_cons, hbacking, List.flatten_cons, List.length_append]
    · exact congrArg Nat.succ hlength

/-- **A copy** has the same bytes in blocks of its own, and leaves every block as it was. -/
theorem Buffer.Lies.copy {buffer : Buffer Window} (h : buffer.Lies memory) :
    ∃ later copied, buffer.copy memory = (later, copied) ∧ copied.Lies later
      ∧ copied.content later = buffer.content memory
      ∧ (∀ fragment ∈ copied.fragments, memory.length ≤ fragment.storage.block)
      ∧ memory.Keeps later ∧ ∀ window, memory.Valid window → later.read window = memory.read window := by
  unfold Buffer.copy
  by_cases hempty : buffer.size = 0
  · rw [if_pos hempty]
    refine ⟨memory, {}, rfl, ⟨Buffer.Sound.empty, nofun⟩, ?_, nofun, Memory.Keeps.refl, fun _ _ => rfl⟩
    exact (List.length_eq_zero_iff.mp (h.size_eq.symm.trans hempty)).symm
  rw [if_neg hempty]
  have hrest : Fragments.rest (contents memory.read buffer.fragments) 0 = buffer.content memory := rfl
  have hcover : buffer.size ≤ maxBufferFragments * (buffer.size / maxBufferFragments
      + if buffer.size % maxBufferFragments ≠ 0 then 1 else 0) := by
    have hfragments : maxBufferFragments = 1024 := rfl
    rw [hfragments]
    split <;> omega
  obtain ⟨chunks, hloop, hflatten, hnonempty, hfew⟩ := @copyLoop_spec _ buffer.size 0 maxBufferFragments memory
    buffer.fragments [] h.windows Fragments.Inside.zero (by rw [hrest]; exact h.size_eq) hcover
  obtain ⟨hcontents, hfragments, hsizes, hbacking, hlength⟩ := @placed_spec memory chunks hnonempty
  rw [hrest] at hflatten
  rw [hflatten, ← h.size_eq] at hsizes hbacking
  refine ⟨_, _, rfl, ?_⟩
  dsimp only
  rw [hloop, List.nil_append]
  have hheld : sizes buffer.fragments ≤ backing buffer.fragments :=
    List.sum_le_sum fun fragment hmem => (h.sound.fragments fragment hmem).held
  have hsize := h.sound.size
  have hretained := h.sound.retained
  have hbounded := h.sound.bounded
  refine ⟨⟨⟨hsizes.symm, hbacking.symm, fun fragment hmem => (hfragments fragment hmem).1, ?_, ?_⟩, ?_⟩, ?_, ?_,
    ⟨?_, ?_⟩, ?_⟩
  · exact hlength.trans_le hfew
  · dsimp only
    omega
  · exact fun fragment hmem => (hfragments fragment hmem).2.2
  · unfold Buffer.content
    rw [hcontents, hflatten]
    rfl
  · exact fun fragment hmem => (hfragments fragment hmem).2.1
  · rw [List.length_append]
    exact Nat.le_add_right _ _
  · intro block hlt
    unfold Memory.blockAt
    rw [List.getElem?_append_left hlt]
  · intro window hvalid
    unfold Memory.read Memory.blockAt
    rw [List.getElem?_append_left hvalid.block]

end KwaqueStorage.Bytes
