import KwaqueStorage.Bytes.Parser

/-!
# A position in a byte string

What a parser is for: a position in a byte string, with a bounded stack of positions to go back to. The
parser keeps an invariant under which it answers exactly as that position does, so how its buffer is cut into
fragments never shows:

* its cursor lies **inside** a fragment, or behind the last one when every byte was read;
* the count of bytes behind the cursor is what the fragments before it hold, and the offset;
* the cached bounds are those of the cursor's fragment;
* the same holds of every position it can go back to.
-/

namespace KwaqueStorage.Bytes

open Lib

/-- A position in a byte string, and the positions that were saved. -/
structure FlatCursor where
  bytes : List UInt8 := []
  position : Nat := 0
  saved : List Nat := []
  deriving DecidableEq

namespace FlatCursor

/-- The bytes from the position on. -/
def rest (c : FlatCursor) : List UInt8 := c.bytes.drop c.position

/-- Reading so many bytes without moving. -/
def peek (c : FlatCursor) (count : Nat) : Except Errc (List UInt8) :=
  if count ≤ c.rest.length then .ok (c.rest.take count) else .error .truncatedData

/-- Moving on. -/
def move (c : FlatCursor) (count : Nat) : FlatCursor := { c with position := c.position + count }

/-- One request. -/
def ask (c : FlatCursor) : Request → Except Errc (Answer (List UInt8)) × FlatCursor
  | .skip bytes => if bytes ≤ c.rest.length then (.ok .done, c.move bytes) else (.error .outOfRange, c)
  | .peekTo size => ((c.peek size).map .copied, c)
  | .readTo size =>
    ((c.peek size).map .copied, if size ≤ c.rest.length then c.move size else c)
  | .peekBuffer bytes => ((c.peek bytes).map .shared, c)
  | .readBuffer bytes =>
    ((c.peek bytes).map .shared, if bytes ≤ c.rest.length then c.move bytes else c)
  | .pushCheckpoint =>
    if c.saved.length < maxParserCheckpoints then (.ok .done, { c with saved := c.position :: c.saved })
    else (.error .resourceExhausted, c)
  | .rollback =>
    match c.saved with
    | [] => (.error .invalidArgument, c)
    | position :: saved => (.ok .done, { c with position, saved })
  | .commit =>
    match c.saved with
    | [] => (.error .invalidArgument, c)
    | _ :: saved => (.ok .done, { c with saved })

end FlatCursor

/-- Positions in byte strings, in the slots of a program. -/
def flatCursors : Slots.Machine FlatCursor (List UInt8) Request (Except Errc (Answer (List UInt8))) where
  blank := {}
  make bytes := { bytes }
  ask := FlatCursor.ask

/-- The bytes a buffer presents. -/
def Buffer.bytes (buffer : Buffer (List UInt8)) : List UInt8 := (contents id buffer.fragments).flatten

/-- A position inside a buffer's fragments that counts the bytes before it. -/
structure Position.At (position : Position) (buffer : Buffer (List UInt8)) : Prop where
  within : Within (buffer.fragments.drop position.fragment) position.offset
  consumed : position.consumed = sizes (buffer.fragments.take position.fragment) + position.offset

/-- What is true of every parser. -/
structure Parser.Sound (p : Parser) : Prop where
  buffer : p.buffer.Sound
  position : p.position.At p.buffer
  cache : p.cache = if p.position.fragment < p.buffer.fragments.length
    then some p.position.fragment else none
  checkpoints : ∀ checkpoint ∈ p.checkpoints, checkpoint.At p.buffer
  depth : p.checkpoints.length ≤ maxParserCheckpoints

/-- The position in a byte string that a parser stands for. -/
def Parser.flat (p : Parser) : FlatCursor where
  bytes := p.buffer.bytes
  position := p.position.consumed
  saved := p.checkpoints.map Position.consumed

/-! ## Reading storage as the bytes it holds -/

variable {fragments : List (Fragment (List UInt8))}

theorem readable : Readable id fragments := fun _ _ => rfl

theorem shares : Shares (id : List UInt8 → List UInt8) := fun _ _ _ _ => rfl

theorem sizes_eq :
    sizes fragments = (contents id fragments).flatten.length := readable.sizes_eq

variable {buffer : Buffer (List UInt8)}

theorem Buffer.Sound.size_eq (h : buffer.Sound) :
    buffer.size = buffer.bytes.length := h.size.trans sizes_eq

theorem contents_drop {count : Nat} :
    contents id (fragments.drop count) = (contents id fragments).drop count := List.map_drop

theorem contents_take {count : Nat} :
    contents id (fragments.take count) = (contents id fragments).take count := List.map_take

theorem Buffer.storageAt_of_drop {index : Nat} {fragment : Fragment (List UInt8)}
    {more : List (Fragment (List UInt8))} (h : buffer.fragments.drop index = fragment :: more)
    : buffer.storageAt index = fragment.storage := by
  have hget : buffer.fragments[index]? = some fragment := by
    rw [← List.head?_drop, h]
    rfl
  unfold Buffer.storageAt
  rw [hget]

theorem drop_next {α : Type} {items more : List α} {index : Nat} {item : α}
    (h : items.drop index = item :: more) : items.drop (index + 1) = more := by
  rw [← List.drop_drop, h]
  rfl

theorem lt_length_of_drop {α : Type} {items more : List α} {index : Nat} {item : α}
    (h : items.drop index = item :: more) : index < items.length := by
  have hlength := congrArg List.length h
  rw [List.length_drop, List.length_cons] at hlength
  omega

/-- What a place leaves of a buffer's bytes. -/
theorem Position.At.rest {position : Position} (h : position.At buffer) :
    buffer.bytes.drop position.consumed
      = Fragments.rest (contents id (buffer.fragments.drop position.fragment)) position.offset := by
  have hsplit : buffer.bytes = (contents id (buffer.fragments.take position.fragment)).flatten
      ++ (contents id (buffer.fragments.drop position.fragment)).flatten := by
    unfold Buffer.bytes
    rw [contents_take, contents_drop, ← List.flatten_append, List.take_append_drop]
  rw [hsplit, h.consumed, sizes_eq, List.drop_length_add_append]
  rfl

namespace Parser.Sound

variable {p : Parser}

theorem rest_eq (h : p.Sound) : p.flat.rest
    = Fragments.rest (contents id (p.buffer.fragments.drop p.position.fragment)) p.position.offset :=
  h.position.rest

theorem remaining_eq (h : p.Sound) : p.bytesRemaining = p.flat.rest.length := by
  unfold Parser.bytesRemaining FlatCursor.rest Parser.flat
  rw [List.length_drop, h.buffer.size_eq]

/-- What remains is what the fragments from the cursor on present, less the offset. -/
theorem offset_add_remaining (h : p.Sound) : p.position.offset + p.flat.rest.length
    = sizes (p.buffer.fragments.drop p.position.fragment) := by
  have hle := h.position.within.le_sizes
  rw [h.rest_eq, Fragments.rest, List.length_drop, ← sizes_eq]
  omega

theorem dropped (h : p.Sound) : ∀ fragment ∈ p.buffer.fragments.drop p.position.fragment,
    fragment.Sound := fun fragment hmem => h.buffer.fragments fragment (List.mem_of_mem_drop hmem)

end Parser.Sound

/-! ## Moving on -/

/-- A parser whose cursor has walked so many bytes, the count of consumed bytes aside. -/
def Parser.walked (p : Parser) (count : Nat) : Parser :=
  let passed := Fragments.walk (contents id (p.buffer.fragments.drop p.position.fragment))
    p.position.offset count
  Parser.refreshCache { p with position :=
    { p.position with fragment := p.position.fragment + passed.1, offset := passed.2 } }

/-- A parser that has read so many bytes. -/
def Parser.moved (p : Parser) (count : Nat) : Parser :=
  { p.walked count with
    position := { (p.walked count).position with consumed := p.position.consumed + count } }

variable {p : Parser}

theorem Parser.refreshCache_eq
    (h : p.cache = if p.position.fragment < p.buffer.fragments.length then some p.position.fragment else none)
    : p.refreshCache = p := by
  unfold Parser.refreshCache
  rw [← h]

theorem Within.placed_iff {offset : Nat} :
    Fragments.Placed (contents id fragments) offset ↔ Within fragments offset := by
  cases fragments with
  | nil => exact Iff.rfl
  | cons fragment more => exact Iff.rfl

/-- **The loop walks** the fragments from the cursor on: it does not fail within what they hold. -/
theorem Parser.advanceLoop_eq {remaining : Nat}
    (hdrop : p.buffer.fragments.drop p.position.fragment = fragments)
    (hsound : ∀ fragment ∈ fragments, fragment.Sound) (hwithin : Within fragments p.position.offset)
    (hcache : p.cache = if p.position.fragment < p.buffer.fragments.length then some p.position.fragment else none)
    (hle : p.position.offset + remaining ≤ sizes fragments) :
    p.advanceLoop remaining = (.ok (), p.walked remaining) := by
  induction fragments generalizing p remaining with
  | nil =>
    have hnone : p.position.offset + remaining ≤ 0 := hle
    rw [Parser.advanceLoop, if_pos (by omega), Parser.walked, hdrop]
    change _ = (_, p.refreshCache)
    rw [Parser.refreshCache_eq hcache]
  | cons fragment more ih =>
    have hmore : ∀ other ∈ more, other.Sound := fun other hmem => hsound other (List.mem_cons_of_mem _ hmem)
    have hlt : p.position.offset < fragment.storage.length := hwithin
    have hsize : fragment.size = fragment.storage.length := rfl
    have hcontents : contents id (fragment :: more) = fragment.storage :: contents id more := rfl
    rw [sizes_cons, hsize] at hle
    by_cases hzero : remaining = 0
    · subst hzero
      rw [Parser.advanceLoop, if_pos rfl, Parser.walked, hdrop,
        Fragments.walk_zero (Within.placed_iff.mpr hwithin)]
      change _ = (_, p.refreshCache)
      rw [Parser.refreshCache_eq hcache]
    · rw [if_pos (lt_length_of_drop hdrop)] at hcache
      rw [Parser.advanceLoop, if_neg hzero, hcache]
      dsimp only
      rw [Buffer.storageAt_of_drop hdrop, if_neg (by omega)]
      by_cases hstay : remaining < fragment.storage.length - p.position.offset
      · have hspan : min (fragment.storage.length - p.position.offset) remaining = remaining := by omega
        rw [hspan, if_neg (by omega), Nat.sub_self, Parser.advanceLoop, if_pos rfl, Parser.walked, hdrop,
          hcontents, Fragments.walk, if_pos hstay]
        unfold Parser.refreshCache
        dsimp only
        rw [Nat.add_zero, if_pos (lt_length_of_drop hdrop), ← hcache]
      · have hspan : min (fragment.storage.length - p.position.offset) remaining
            = fragment.storage.length - p.position.offset := by omega
        rw [hspan, if_pos (by omega), ih (drop_next hdrop) hmore (Within.zero hmore) rfl
          (by dsimp only [Parser.refreshCache]; omega), Parser.walked, Parser.walked, hdrop, hcontents,
          Fragments.walk, if_neg hstay]
        unfold Parser.refreshCache
        dsimp only
        rw [drop_next hdrop, Nat.add_assoc, Nat.add_comm 1]

/-- Reading on within what remains succeeds, and moves the cursor there. -/
theorem Parser.Sound.advance_eq (h : p.Sound) {count : Nat} (hle : count ≤ p.flat.rest.length)
    : p.advance count = (.ok (), p.moved count) := by
  have hremaining := h.offset_add_remaining
  have hsplit := @sizes_split _ _ p.buffer.fragments p.position.fragment
  have hconsumed := h.position.consumed
  have hsmall : p.position.consumed + count < 2 ^ 64 := by
    have hheld : sizes p.buffer.fragments ≤ backing p.buffer.fragments :=
      List.sum_le_sum fun fragment hmem => (h.buffer.fragments fragment hmem).held
    have hretained := h.buffer.retained
    have hbounded := h.buffer.bounded
    have hmax : maxBufferBytes = 134217728 := rfl
    omega
  unfold Parser.advance
  rw [if_pos hsmall, Parser.advanceLoop_eq rfl h.dropped h.position.within h.cache (by omega)]
  rfl

theorem Parser.Sound.moved (h : p.Sound) {count : Nat} (hle : count ≤ p.flat.rest.length) :
    (p.moved count).Sound := by
  have hplaced := Within.placed_iff.mpr h.position.within
  have hnonempty : ∀ fragment ∈ contents id (p.buffer.fragments.drop p.position.fragment),
      fragment ≠ [] := by
    intro bytes hmem
    obtain ⟨fragment, hfragment, rfl⟩ := List.mem_map.mp hmem
    exact List.length_pos_iff.mp (h.dropped fragment hfragment).nonempty
  have hwalked := Fragments.walk_placed hplaced hnonempty (h.rest_eq ▸ hle)
  have hrest := congrArg List.length (@Fragments.walk_rest _ _ _ count hplaced.inside)
  rw [← contents_drop, List.drop_drop] at hwalked hrest
  rw [Fragments.rest, List.length_drop, List.length_drop, ← h.rest_eq, ← sizes_eq] at hrest
  have hwithin := Within.placed_iff.mp hwalked
  have hbehind := hwithin.le_sizes
  have hremaining := h.offset_add_remaining
  have hconsumed := h.position.consumed
  have hbefore := @sizes_split _ _ p.buffer.fragments p.position.fragment
  have hafter := @sizes_split _ _ p.buffer.fragments (p.moved count).position.fragment
  refine ⟨h.buffer, ⟨hwithin, ?_⟩, rfl, h.checkpoints, h.depth⟩
  -- the bytes behind the cursor are all but those that remain, before and after
  change p.position.consumed + count
    = sizes (p.buffer.fragments.take (p.moved count).position.fragment) + _
  have hcursor : (p.moved count).position.offset ≤ sizes (p.buffer.fragments.drop
    (p.moved count).position.fragment) := hbehind
  have hleft : sizes (p.buffer.fragments.drop (p.moved count).position.fragment)
      - (p.moved count).position.offset = p.flat.rest.length - count := hrest
  omega

/-! ## Copying out -/

/-- **The loop copies** what the fragments from a place on hold. -/
theorem Parser.copyLoop_eq {fragment offset count : Nat} {written : List UInt8}
    (hdrop : buffer.fragments.drop fragment = fragments)
    (hinside : Fragments.Inside (contents id fragments) offset) (hle : offset + count ≤ sizes fragments) :
    Parser.copyLoop buffer fragment offset count written
      = .ok (written ++ Fragments.copy (contents id fragments) offset count) := by
  by_cases hzero : count = 0
  · subst hzero
    rw [Parser.copyLoop, if_pos rfl, Fragments.copy_eq hinside, List.take_zero, List.append_nil]
  induction fragments generalizing fragment offset count written with
  | nil =>
    have hnone : offset + count ≤ 0 := hle
    omega
  | cons first more ih =>
    have hsize : first.size = first.storage.length := rfl
    have hcontents : contents id (first :: more) = first.storage :: contents id more := rfl
    have hfirst : offset ≤ first.storage.length := hinside
    have hlt := lt_length_of_drop hdrop
    -- a fragment that is used up is passed, and the next one is read from its start
    have hpass : ∀ {left : Nat} {copied : List UInt8}, left ≤ sizes more →
        Parser.copyLoop buffer fragment first.storage.length left copied
          = .ok (copied ++ Fragments.copy (contents id more) 0 left) := by
      intro left copied hleft
      by_cases hdone : left = 0
      · subst hdone
        rw [Parser.copyLoop, if_pos rfl, Fragments.copy_eq Fragments.Inside.zero, List.take_zero,
          List.append_nil]
      · rw [Parser.copyLoop, if_neg hdone, if_neg (by omega), Buffer.storageAt_of_drop hdrop,
          if_pos (Nat.le_refl _)]
        exact ih (drop_next hdrop) Fragments.Inside.zero (by omega) hdone
    rw [sizes_cons, hsize] at hle
    rw [hcontents, Fragments.copy]
    by_cases hspent : offset = first.storage.length
    · subst hspent
      rw [hpass (by omega), Nat.sub_self, Nat.zero_min, List.take_zero, List.nil_append, Nat.sub_zero]
    · rw [Parser.copyLoop, if_neg hzero, if_neg (by omega), Buffer.storageAt_of_drop hdrop,
        if_neg (by omega)]
      dsimp only
      rw [← List.append_assoc]
      by_cases hall : count ≤ first.storage.length - offset
      · have hspan : min (first.storage.length - offset) count = count := by omega
        rw [hspan, Nat.sub_self, Parser.copyLoop, if_pos rfl, Fragments.copy_eq Fragments.Inside.zero,
          List.take_zero, List.append_nil]
      · have hspan : min (first.storage.length - offset) count = first.storage.length - offset := by omega
        have hend : offset + (first.storage.length - offset) = first.storage.length := by omega
        rw [hspan, hend, hpass (by omega)]

/-- A read inside the cached fragment gives the same bytes as the walk would. -/
theorem Parser.Sound.cacheHolds (h : p.Sound) {size index : Nat}
    (hholds : p.cacheHolds size p.position = some index) :
    ((p.buffer.storageAt index).drop p.position.offset).take size = p.flat.rest.take size := by
  unfold Parser.cacheHolds at hholds
  rw [h.cache] at hholds
  split at hholds
  next cached hcached =>
    obtain ⟨hlt, ⟨⟩⟩ := Option.ite_none_right_eq_some.mp hcached
    split at hholds
    next hfits =>
      cases hholds
      obtain ⟨fragment, more, hdrop⟩ : ∃ fragment more,
          p.buffer.fragments.drop p.position.fragment = fragment :: more := by
        refine List.exists_cons_of_length_pos ?_
        rw [List.length_drop]
        omega
      have hwithin := h.position.within
      rw [Buffer.storageAt_of_drop hdrop] at hfits ⊢
      rw [hdrop] at hwithin
      have hoffset : p.position.offset < fragment.storage.length := hwithin
      have hcontents : contents id (fragment :: more) = fragment.storage :: contents id more := rfl
      rw [h.rest_eq, hdrop, hcontents, Fragments.rest_cons hoffset.le,
        List.take_append_of_le_length (by rw [List.length_drop]; exact hfits.2)]
    next => cases hholds
  next => cases hholds

/-- **Copying out** from the cursor is reading at the position. -/
theorem Parser.Sound.copyOut_eq (h : p.Sound) {size : Nat} :
    p.copyOut size p.position = p.flat.peek size := by
  have hremaining := h.offset_add_remaining
  unfold Parser.copyOut FlatCursor.peek
  rw [h.remaining_eq]
  by_cases hle : size ≤ p.flat.rest.length
  · rw [if_neg (by omega), if_pos hle]
    split
    next index hholds => rw [h.cacheHolds hholds]
    next =>
      have hinside := (Within.placed_iff.mpr h.position.within).inside
      rw [Parser.copyLoop_eq rfl hinside (by omega), List.nil_append, Fragments.copy_eq hinside,
        ← h.rest_eq]
  · rw [if_pos (by omega), if_neg hle]

/-! ## Sharing -/

theorem Buffer.shareWhole_bytes : buffer.shareWhole.bytes = buffer.bytes := by
  have hshare : ∀ fragment : Fragment (List UInt8),
      (fragment.share 0 fragment.size).storage = fragment.storage := fun fragment => List.take_length
  unfold Buffer.bytes Buffer.shareWhole contents
  rw [List.map_map]
  exact congrArg List.flatten (List.map_congr_left fun fragment _ => hshare fragment)

/-- **A shared buffer** is sound and holds the bytes at the position. -/
theorem Parser.Sound.shareFrom (h : p.Sound) {count : Nat} (hle : count ≤ p.flat.rest.length) :
    ∃ shared, p.buffer.shareFrom p.position.fragment p.position.offset count = .ok shared ∧ shared.Sound
      ∧ shared.bytes = p.flat.rest.take count := by
  have hremaining := h.offset_add_remaining
  by_cases hwhole : p.position.fragment = 0 ∧ p.position.offset = 0 ∧ count = p.buffer.size
  · refine ⟨p.buffer.shareWhole, if_pos hwhole, h.buffer.shareWhole, ?_⟩
    obtain ⟨hfragment, hoffset, hcount⟩ := hwhole
    have hstart : p.position.consumed = 0 := by
      rw [h.position.consumed, hfragment, hoffset]
      rfl
    have hrest : p.flat.rest = p.buffer.bytes := by
      unfold FlatCursor.rest Parser.flat
      rw [hstart]
      rfl
    rw [Buffer.shareWhole_bytes, hrest, hcount, h.buffer.size_eq, List.take_length]
  · refine ⟨_, Buffer.shareFrom_eq h.buffer h.position.within (by omega) hwhole,
      h.buffer.carved h.position.within (by omega), ?_⟩
    unfold Buffer.bytes
    rw [contents_carve shares readable h.position.within h.dropped,
      Fragments.cut_flatten (Within.placed_iff.mpr h.position.within).inside, ← h.rest_eq]

theorem Parser.Sound.peekBuffer (h : p.Sound) (count : Nat) :
    (p.peekBuffer count).map Buffer.bytes = p.flat.peek count
      ∧ ∀ shared, p.peekBuffer count = .ok shared → shared.Sound := by
  unfold Parser.peekBuffer FlatCursor.peek
  rw [h.remaining_eq]
  by_cases hle : count ≤ p.flat.rest.length
  · rw [if_neg (by omega), if_pos hle]
    by_cases hzero : count = 0
    · rw [if_pos hzero, hzero]
      refine ⟨rfl, ?_⟩
      rintro shared ⟨⟩
      exact Buffer.Sound.empty
    · obtain ⟨shared, hshared, hsound, hbytes⟩ := h.shareFrom hle
      rw [if_neg hzero, hshared, ← hbytes]
      refine ⟨rfl, ?_⟩
      rintro _ ⟨⟩
      exact hsound
  · rw [if_pos (by omega), if_neg hle]
    exact ⟨rfl, fun _ hshared => nomatch hshared⟩

/-! ## Every request -/

theorem Parser.Sound.blank : ({} : Parser).Sound where
  buffer := Buffer.Sound.empty
  position := ⟨rfl, rfl⟩
  cache := rfl
  checkpoints := nofun
  depth := Nat.zero_le _

/-- A parser over a published buffer starts at its first byte. -/
theorem Parser.make_eq (h : buffer.Sound) :
    Parser.make buffer = Parser.refreshCache { buffer } := by
  unfold Parser.make Parser.refreshCache
  rw [Parser.normalize]
  by_cases hsome : 0 < buffer.fragments.length
  · obtain ⟨fragment, more, hfragments⟩ := List.exists_cons_of_length_pos hsome
    have hfirst : buffer.storageAt 0 = fragment.storage := Buffer.storageAt_of_drop hfragments
    have hnonempty : 0 < fragment.storage.length :=
      (h.fragments fragment (hfragments ▸ List.mem_cons_self ..)).nonempty
    dsimp only
    rw [if_pos hsome, if_pos hsome, hfirst, if_pos hnonempty]
  · dsimp only
    rw [if_neg hsome, if_neg hsome]

theorem Parser.make_sound (h : buffer.Sound) :
    (Parser.make buffer).Sound ∧ (Parser.make buffer).flat = { bytes := buffer.bytes } := by
  rw [Parser.make_eq h]
  exact ⟨⟨h, ⟨Within.zero h.fragments, rfl⟩, rfl, nofun, Nat.zero_le _⟩, rfl⟩

/-- An answer in terms of the bytes a shared buffer holds. -/
def shown (answer : Except Errc (Answer (Buffer (List UInt8)))) : Except Errc (Answer (List UInt8)) :=
  answer.map (Answer.map Buffer.bytes)

/-- What a request comes to: the invariant is kept, the answer and the position are those of the byte
    string, and a refusal changes nothing. -/
structure Parser.Answers (p : Parser) (request : Request) : Prop where
  sound : (p.ask request).2.Sound
  answer : shown (p.ask request).1 = (p.flat.ask request).1
  flat : (p.ask request).2.flat = (p.flat.ask request).2
  refused : ∀ e, (p.ask request).1 = .error e → (p.ask request).2 = p

namespace Parser.Sound

variable {p : Parser}

theorem moved_zero (h : p.Sound) : p.moved 0 = p := by
  unfold Parser.moved Parser.walked
  rw [Fragments.walk_zero (Within.placed_iff.mpr h.position.within)]
  exact Parser.refreshCache_eq h.cache

theorem skip_eq (h : p.Sound) (count : Nat) : p.skip count
    = if count ≤ p.flat.rest.length then (.ok (), p.moved count) else (.error .outOfRange, p) := by
  unfold Parser.skip
  rw [h.remaining_eq]
  by_cases hle : count ≤ p.flat.rest.length
  · rw [if_neg (by omega), if_pos hle]
    by_cases hzero : count = 0
    · rw [if_pos hzero, hzero, h.moved_zero]
    · rw [if_neg hzero, h.advance_eq hle]
  · rw [if_pos (by omega), if_neg hle]

theorem peekTo_eq (h : p.Sound) (count : Nat) : p.peekTo count = p.flat.peek count := by
  unfold Parser.peekTo
  by_cases hzero : count = 0
  · rw [if_pos hzero, hzero, FlatCursor.peek, if_pos (Nat.zero_le _), List.take_zero]
  · rw [if_neg hzero, h.copyOut_eq]

/-- A read is a peek, and moves on if the peek succeeds. -/
theorem readTo_eq (h : p.Sound) (count : Nat) : p.readTo count
    = (p.peekTo count, if count ≤ p.flat.rest.length then p.moved count else p) := by
  rw [h.peekTo_eq]
  unfold Parser.readTo
  by_cases hzero : count = 0
  · rw [if_pos hzero, hzero, h.moved_zero, FlatCursor.peek, if_pos (Nat.zero_le _), List.take_zero,
      ite_self]
  · rw [if_neg hzero, h.copyOut_eq]
    by_cases hle : count ≤ p.flat.rest.length
    · rw [if_pos hle, FlatCursor.peek, if_pos hle, h.advance_eq hle]
    · rw [if_neg hle, FlatCursor.peek, if_neg hle]

theorem readBuffer_eq (h : p.Sound) (count : Nat) : p.readBuffer count
    = (p.peekBuffer count, if count ≤ p.flat.rest.length then p.moved count else p) := by
  have hpeek := (h.peekBuffer count).1
  unfold FlatCursor.peek at hpeek
  unfold Parser.readBuffer
  by_cases hle : count ≤ p.flat.rest.length
  · rw [if_pos hle] at hpeek
    cases hshared : p.peekBuffer count with
    | error e =>
      rw [hshared] at hpeek
      cases hpeek
    | ok shared =>
      dsimp only
      rw [if_pos hle]
      by_cases hzero : count = 0
      · rw [if_pos hzero, hzero, h.moved_zero]
      · rw [if_neg hzero, h.advance_eq hle]
  · rw [if_neg hle] at hpeek
    cases hshared : p.peekBuffer count with
    | error e => rw [if_neg hle]
    | ok shared =>
      rw [hshared] at hpeek
      cases hpeek

/-- A request that reads so many bytes or none: it moves on exactly if they are there. -/
theorem reads (h : p.Sound) {request : Request} (count : Nat)
    (hask : (p.ask request).2 = if count ≤ p.flat.rest.length then p.moved count else p)
    (hflat : (p.flat.ask request).2
      = if count ≤ p.flat.rest.length then p.flat.move count else p.flat)
    (hanswer : shown (p.ask request).1 = (p.flat.ask request).1)
    (hgiven : count ≤ p.flat.rest.length → ∀ e, (p.flat.ask request).1 ≠ .error e) :
    p.Answers request := by
  by_cases hle : count ≤ p.flat.rest.length
  · rw [if_pos hle] at hask hflat
    refine ⟨hask ▸ h.moved hle, hanswer, ?_, ?_⟩
    · rw [hask, hflat]
      rfl
    · intro e hrefused
      rw [hrefused] at hanswer
      exact absurd hanswer.symm (hgiven hle e)
  · rw [if_neg hle] at hask hflat
    refine ⟨?_, hanswer, ?_, fun _ _ => hask⟩
    · rw [hask]
      exact h
    · rw [hask, hflat]

theorem peek_given {count : Nat} (hle : count ≤ p.flat.rest.length) {wrap : List UInt8 → Answer (List UInt8)}
    {e : Errc} : (p.flat.peek count).map wrap ≠ .error e := by
  unfold FlatCursor.peek
  rw [if_pos hle]
  exact nofun

theorem shown_peekTo (h : p.Sound) (count : Nat) :
    shown ((p.peekTo count).map .copied) = (p.flat.peek count).map .copied := by
  rw [h.peekTo_eq]
  cases p.flat.peek count <;> rfl

theorem shown_peekBuffer (h : p.Sound) (count : Nat) :
    shown ((p.peekBuffer count).map .shared) = (p.flat.peek count).map .shared := by
  rw [← (h.peekBuffer count).1]
  cases p.peekBuffer count <;> rfl

/-- Keeping a position: refused when eight are kept. -/
theorem pushCheckpoint (h : p.Sound) : p.Answers .pushCheckpoint := by
  have hdepth := h.depth
  have hask : p.ask .pushCheckpoint = answerWith (fun _ => .done) p.pushCheckpoint := rfl
  have hflat : p.flat.ask .pushCheckpoint = if p.flat.saved.length < maxParserCheckpoints
      then (.ok .done, { p.flat with saved := p.flat.position :: p.flat.saved })
      else (.error .resourceExhausted, p.flat) := rfl
  have hsaved : p.flat.saved.length = p.checkpoints.length := List.length_map _
  unfold Parser.pushCheckpoint at hask
  rw [hsaved] at hflat
  by_cases hfull : p.checkpoints.length = maxParserCheckpoints
  · rw [if_pos hfull] at hask
    rw [if_neg (by omega)] at hflat
    exact ⟨hask ▸ h, by rw [hask, hflat]; rfl, by rw [hask, hflat]; rfl, fun _ _ => hask ▸ rfl⟩
  · rw [if_neg hfull] at hask
    rw [if_pos (by omega)] at hflat
    refine ⟨?_, by rw [hask, hflat]; rfl, by rw [hask, hflat]; rfl, ?_⟩
    · rw [hask]
      refine ⟨h.buffer, h.position, h.cache, ?_, ?_⟩
      · exact List.forall_mem_cons.mpr ⟨h.position, h.checkpoints⟩
      · change p.checkpoints.length + 1 ≤ _
        omega
    · rw [hask]
      exact fun _ hrefused => nomatch hrefused

/-- Going back and letting go: refused when no position is kept. -/
theorem popped (h : p.Sound) : p.Answers .rollback ∧ p.Answers .commit := by
  cases hkept : p.checkpoints with
  | nil =>
    have hrollback : p.ask .rollback = (.error .invalidArgument, p) := by
      change answerWith (fun _ => Answer.done) p.rollback = _
      unfold Parser.rollback
      rw [hkept]
      rfl
    have hcommit : p.ask .commit = (.error .invalidArgument, p) := by
      change answerWith (fun _ => Answer.done) p.commit = _
      unfold Parser.commit
      rw [hkept]
      rfl
    have hsaved : p.flat.saved = [] := List.map_eq_nil_iff.mpr hkept
    have hback : p.flat.ask .rollback = (.error .invalidArgument, p.flat) := by
      unfold FlatCursor.ask
      dsimp only
      rw [hsaved]
    have hgone : p.flat.ask .commit = (.error .invalidArgument, p.flat) := by
      unfold FlatCursor.ask
      dsimp only
      rw [hsaved]
    constructor
    · exact ⟨hrollback ▸ h, by rw [hrollback, hback]; rfl, by rw [hrollback, hback],
        fun _ _ => by rw [hrollback]⟩
    · exact ⟨hcommit ▸ h, by rw [hcommit, hgone]; rfl, by rw [hcommit, hgone], fun _ _ => by rw [hcommit]⟩
  | cons checkpoint checkpoints =>
    have hall := h.checkpoints
    have hdepth := h.depth
    rw [hkept] at hall hdepth
    obtain ⟨hplace, hrest⟩ := List.forall_mem_cons.mp hall
    have hless : checkpoints.length ≤ maxParserCheckpoints := Nat.le_of_succ_le hdepth
    have hrollback : p.ask .rollback
        = (.ok .done, Parser.refreshCache { p with position := checkpoint, checkpoints }) := by
      change answerWith (fun _ => Answer.done) p.rollback = _
      unfold Parser.rollback
      rw [hkept]
      rfl
    have hcommit : p.ask .commit = (.ok .done, { p with checkpoints }) := by
      change answerWith (fun _ => Answer.done) p.commit = _
      unfold Parser.commit
      rw [hkept]
      rfl
    have hsaved : p.flat.saved = checkpoint.consumed :: checkpoints.map Position.consumed := by
      unfold Parser.flat
      rw [hkept]
      rfl
    have hback : p.flat.ask .rollback = (.ok .done, { p.flat with
        position := checkpoint.consumed, saved := checkpoints.map Position.consumed }) := by
      unfold FlatCursor.ask
      dsimp only
      rw [hsaved]
    have hgone : p.flat.ask .commit
        = (.ok .done, { p.flat with saved := checkpoints.map Position.consumed }) := by
      unfold FlatCursor.ask
      dsimp only
      rw [hsaved]
    constructor
    · refine ⟨?_, by rw [hrollback, hback]; rfl, by rw [hrollback, hback]; rfl, ?_⟩
      · rw [hrollback]
        exact ⟨h.buffer, hplace, rfl, hrest, hless⟩
      · rw [hrollback]
        exact fun _ hrefused => nomatch hrefused
    · refine ⟨?_, by rw [hcommit, hgone]; rfl, by rw [hcommit, hgone]; rfl, ?_⟩
      · rw [hcommit]
        exact ⟨h.buffer, h.position, h.cache, hrest, hless⟩
      · rw [hcommit]
        exact fun _ hrefused => nomatch hrefused

/-- **Every request** of a sound parser. -/
theorem ask (h : p.Sound) (request : Request) : p.Answers request := by
  cases request with
  | skip count =>
    have hask : p.ask (.skip count) = answerWith (fun _ => .done) (p.skip count) := rfl
    have hflat : p.flat.ask (.skip count) = if count ≤ p.flat.rest.length
        then (.ok .done, p.flat.move count) else (.error .outOfRange, p.flat) := rfl
    rw [h.skip_eq] at hask
    refine h.reads count ?_ ?_ ?_ fun hle e => ?_
    · rw [hask]
      split <;> rfl
    · rw [hflat]
      split <;> rfl
    · rw [hask, hflat]
      split <;> rfl
    · rw [hflat, if_pos hle]
      exact nofun
  | peekTo count => exact ⟨h, h.shown_peekTo count, rfl, fun _ _ => rfl⟩
  | readTo count =>
    have hask : p.ask (.readTo count) = answerWith .copied (p.readTo count) := rfl
    rw [h.readTo_eq] at hask
    refine h.reads count (congrArg Prod.snd hask) rfl ?_ fun hle _ => peek_given hle
    rw [hask]
    exact h.shown_peekTo count
  | peekBuffer count => exact ⟨h, h.shown_peekBuffer count, rfl, fun _ _ => rfl⟩
  | readBuffer count =>
    have hask : p.ask (.readBuffer count) = answerWith .shared (p.readBuffer count) := rfl
    rw [h.readBuffer_eq] at hask
    refine h.reads count (congrArg Prod.snd hask) rfl ?_ fun hle _ => peek_given hle
    rw [hask]
    exact h.shown_peekBuffer count
  | pushCheckpoint => exact h.pushCheckpoint
  | rollback => exact h.popped.1
  | commit => exact h.popped.2

/-- A buffer that a parser shares can be given to another parser. -/
theorem shared_sound (h : p.Sound) {request : Request} {shared : Buffer (List UInt8)}
    (hshared : (p.ask request).1 = .ok (.shared shared)) : shared.Sound := by
  have hof : ∀ count, (p.peekBuffer count).map Answer.shared = .ok (.shared shared) →
      shared.Sound := by
    intro count hgiven
    cases hpeek : p.peekBuffer count with
    | error e =>
      rw [hpeek] at hgiven
      cases hgiven
    | ok given =>
      rw [hpeek] at hgiven
      cases hgiven
      exact (h.peekBuffer count).2 _ hpeek
  have hno : ∀ {α : Type} {wrap : α → Answer (Buffer (List UInt8))} {result : Except Errc α},
      (∀ a, wrap a ≠ .shared shared) → result.map wrap ≠ .ok (.shared shared) := by
    intro α wrap result hwrap hgiven
    cases result with
    | error e => cases hgiven
    | ok a => exact hwrap a (Except.ok.inj hgiven)
  cases request with
  | skip count => exact absurd hshared (hno nofun)
  | peekTo count => exact absurd hshared (hno nofun)
  | readTo count => exact absurd hshared (hno nofun)
  | peekBuffer count => exact hof count hshared
  | readBuffer count =>
    refine hof count ?_
    change (p.readBuffer count).1.map Answer.shared = _ at hshared
    rw [h.readBuffer_eq] at hshared
    exact hshared
  | pushCheckpoint => exact absurd hshared (hno nofun)
  | rollback => exact absurd hshared (hno nofun)
  | commit => exact absurd hshared (hno nofun)

/-- The cursor never rests at a fragment's end while bytes remain. -/
theorem inside (h : p.Sound) (hleft : 0 < p.bytesRemaining) : ∃ fragment,
    p.buffer.fragments[p.position.fragment]? = some fragment ∧ p.position.offset < fragment.size := by
  have hremaining := h.offset_add_remaining
  have hwithin := h.position.within
  rw [h.remaining_eq] at hleft
  cases hdrop : p.buffer.fragments.drop p.position.fragment with
  | nil =>
    rw [hdrop] at hremaining
    change _ = 0 at hremaining
    omega
  | cons fragment more =>
    rw [hdrop] at hwithin
    refine ⟨fragment, ?_, hwithin⟩
    rw [← List.head?_drop, hdrop]
    rfl

end Parser.Sound

/-! ## Programs -/

/-- What a published buffer holds. -/
def held (buffer : Published) : List UInt8 := buffer.val.bytes

/-- Parsers do what positions in byte strings do. -/
theorem parsers_refine : parsers.Refines flatCursors Parser.Sound Parser.flat held shown where
  blank := ⟨Parser.Sound.blank, rfl⟩
  make buffer := Parser.make_sound buffer.property
  ask _ request h := ⟨(h.ask request).sound, (h.ask request).answer, (h.ask request).flat⟩

/-- **A parser is a position in a byte string.** In every program that makes, asks and moves parsers over
    published buffers, however these are cut into fragments:

    * every answer, every count of consumed bytes and every kept position is that of the positions in the
      flat byte strings, so it is the same for every other fragmentation of the same bytes;
    * in every parser the cached bounds are those of the cursor's fragment, and the cursor does not rest at
      a fragment's end while bytes remain;
    * a request that is refused leaves its parser as it was, and a buffer that is shared is sound. -/
theorem parser_refines_cursor (actions : List (Slots.Action Published Request)) :
    ((parsers.run actions).1.map (Option.map shown)
        = (flatCursors.run (actions.map (Slots.Action.map held))).1
      ∧ ∀ slot, ((parsers.run actions).2 slot).flat
        = (flatCursors.run (actions.map (Slots.Action.map held))).2 slot)
    ∧ (∀ others : List (Slots.Action Published Request),
      others.map (Slots.Action.map held) = actions.map (Slots.Action.map held) →
      (parsers.run others).1.map (Option.map shown) = (parsers.run actions).1.map (Option.map shown)
        ∧ ∀ slot, ((parsers.run others).2 slot).position.consumed
          = ((parsers.run actions).2 slot).position.consumed)
    ∧ ∀ slot, let p := (parsers.run actions).2 slot
      (p.cache = if p.position.fragment < p.buffer.fragments.length then some p.position.fragment else none)
      ∧ (0 < p.bytesRemaining → ∃ fragment, p.buffer.fragments[p.position.fragment]? = some fragment
        ∧ p.position.offset < fragment.size)
      ∧ ∀ request, (∀ e, (p.ask request).1 = .error e → (p.ask request).2 = p)
        ∧ ∀ shared, (p.ask request).1 = .ok (.shared shared) → shared.Sound := by
  obtain ⟨hsound, hanswers, hflat⟩ := parsers_refine.run actions
  refine ⟨⟨hanswers, congrFun hflat⟩, ?_, ?_⟩
  · intro others hsame
    obtain ⟨_, hothers, hflats⟩ := parsers_refine.run others
    rw [hsame] at hothers hflats
    refine ⟨hothers.trans hanswers.symm, fun slot => ?_⟩
    exact congrArg FlatCursor.position ((congrFun hflats slot).trans (congrFun hflat slot).symm)
  · intro slot
    refine ⟨(hsound slot).cache, (hsound slot).inside, fun request => ?_⟩
    exact ⟨((hsound slot).ask request).refused, fun shared => (hsound slot).shared_sound⟩

end KwaqueStorage.Bytes
