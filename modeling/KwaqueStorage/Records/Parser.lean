import KwaqueStorage.Lib.Fragments
import KwaqueStorage.Records.Size

/-!
# A parser over a buffer in fragments

`fragmented_buffer_parser` reads a buffer through a cursor and never joins its fragments. A read takes all
of its bytes or none, and leaves the cursor where it was if it fails. Up to eight positions can be kept to
go back to.

The lemmas say what each operation does to the bytes that remain; nothing after this module looks at
fragments again, but to count them.
-/

namespace KwaqueStorage.Records

open Lib

/-- A place in a buffer: a fragment, and an offset into it. -/
structure Position where
  fragment : Nat := 0
  offset : Nat := 0
  deriving DecidableEq

/-- A cursor is kept off the end of a fragment. -/
def Position.Placed (position : Position) (buffer : Buffer) : Prop :=
  Fragments.Placed (buffer.fragments.drop position.fragment) position.offset

/-- `fragmented_buffer_parser`. -/
@[ext]
structure Parser where
  buffer : Buffer
  position : Position := {}
  checkpoints : List Position := []
  placed : position.Placed buffer
  kept : ∀ checkpoint ∈ checkpoints, checkpoint.Placed buffer

/-- `max_parser_checkpoints`. -/
def maxParserCheckpoints : Nat := 8

/-- A parser at the start of a buffer. -/
def Parser.start (buffer : Buffer) : Parser where
  buffer
  position := {}
  checkpoints := []
  placed := Fragments.Placed.zero buffer.nonempty
  kept := nofun

namespace Parser

/-- The bytes that remain. -/
def rest (p : Parser) : List UInt8 :=
  Fragments.rest (p.buffer.fragments.drop p.position.fragment) p.position.offset

/-- `bytes_consumed`. -/
def consumed (p : Parser) : Nat :=
  (p.buffer.fragments.take p.position.fragment).flatten.length + p.position.offset

/-- `total_bytes`. -/
def total (p : Parser) : Nat := p.buffer.size

/-- `bytes_remaining`. -/
def remaining (p : Parser) : Nat := p.total - p.consumed

/-- What lies from the cursor on, whole fragments and all. -/
theorem drop_nonempty (p : Parser) : ∀ fragment ∈ p.buffer.fragments.drop p.position.fragment,
    fragment ≠ [] := fun fragment hmem => p.buffer.nonempty fragment (List.mem_of_mem_drop hmem)

theorem consumed_add_rest (p : Parser) : p.consumed + p.rest.length = p.total := by
  have hsplit : p.total = (p.buffer.fragments.take p.position.fragment).flatten.length
      + (p.buffer.fragments.drop p.position.fragment).flatten.length := by
    unfold total Buffer.size Buffer.bytes
    rw [← List.length_append, ← List.flatten_append, List.take_append_drop]
  have hoffset : p.position.offset
      ≤ (p.buffer.fragments.drop p.position.fragment).flatten.length := by
    have hplaced := p.placed
    unfold Position.Placed at hplaced
    cases hdrop : p.buffer.fragments.drop p.position.fragment with
    | nil =>
      rw [hdrop] at hplaced
      exact hplaced.le
    | cons fragment more =>
      rw [hdrop] at hplaced
      rw [List.flatten_cons, List.length_append]
      exact hplaced.inside.trans (Nat.le_add_right _ _)
  unfold consumed rest Fragments.rest
  rw [List.length_drop, hsplit]
  omega

theorem remaining_eq (p : Parser) : p.remaining = p.rest.length := by
  have h := p.consumed_add_rest
  unfold remaining
  omega

/-- What remains of a buffer is what follows the bytes that were read. -/
theorem rest_eq (p : Parser) : p.rest = p.buffer.bytes.drop p.consumed := by
  have hsplit : p.buffer.bytes = (p.buffer.fragments.take p.position.fragment).flatten
      ++ (p.buffer.fragments.drop p.position.fragment).flatten := by
    unfold Buffer.bytes
    rw [← List.flatten_append, List.take_append_drop]
  unfold rest consumed Fragments.rest
  rw [hsplit, List.drop_append, List.drop_eq_nil_of_le (Nat.le_add_right _ _), List.nil_append,
    Nat.add_sub_cancel_left]

theorem start_rest (buffer : Buffer) : (start buffer).rest = buffer.bytes := rfl

theorem start_consumed (buffer : Buffer) : (start buffer).consumed = 0 := rfl

/-! ## Moving on -/

/-- `advance`, within what remains. -/
def advance (p : Parser) (count : Nat) : Parser :=
  if h : count ≤ p.remaining then
    let moved := Fragments.walk (p.buffer.fragments.drop p.position.fragment) p.position.offset count
    { p with
      position := ⟨p.position.fragment + moved.1, moved.2⟩
      placed := by
        have hplaced := Fragments.walk_placed p.placed p.drop_nonempty (p.remaining_eq ▸ h)
        unfold Position.Placed
        rwa [List.drop_drop] at hplaced }
  else p

/-- `skip`. -/
def skip (p : Parser) (count : Nat) : Except Errc Parser :=
  if count ≤ p.remaining then .ok (p.advance count) else .error .outOfRange

variable {p : Parser} {count : Nat}

@[simp] theorem advance_buffer : (p.advance count).buffer = p.buffer := by
  unfold advance
  split
  next => rfl
  next => rfl

@[simp] theorem advance_checkpoints : (p.advance count).checkpoints = p.checkpoints := by
  unfold advance
  split
  next => rfl
  next => rfl

@[simp] theorem advance_total : (p.advance count).total = p.total := by
  unfold total
  rw [advance_buffer]

theorem advance_rest (h : count ≤ p.rest.length) : (p.advance count).rest = p.rest.drop count := by
  unfold advance
  rw [dif_pos (p.remaining_eq ▸ h)]
  unfold rest
  dsimp only
  rw [← List.drop_drop]
  exact Fragments.walk_rest p.placed.inside

theorem advance_consumed (h : count ≤ p.rest.length) :
    (p.advance count).consumed = p.consumed + count := by
  have hbefore := p.consumed_add_rest
  have hafter := (p.advance count).consumed_add_rest
  rw [advance_total, advance_rest h, List.length_drop] at hafter
  omega

theorem advance_position (h : count ≤ p.rest.length) : (p.advance count).position
    = let moved := Fragments.walk (p.buffer.fragments.drop p.position.fragment) p.position.offset count
      ⟨p.position.fragment + moved.1, moved.2⟩ := by
  unfold advance
  rw [dif_pos (p.remaining_eq ▸ h)]

theorem advance_of_not_le (h : ¬count ≤ p.rest.length) : p.advance count = p := by
  unfold advance
  rw [dif_neg (p.remaining_eq ▸ h)]

theorem advance_zero : p.advance 0 = p := by
  have hnone : Fragments.walk (p.buffer.fragments.drop p.position.fragment) p.position.offset 0
      = (0, p.position.offset) := Fragments.walk_zero p.placed
  refine Parser.ext advance_buffer ?_ advance_checkpoints
  rw [advance_position (Nat.zero_le _), hnone]
  rfl

/-- Moving on twice is moving on once. -/
theorem advance_advance {first second : Nat} (h : first + second ≤ p.rest.length) :
    (p.advance first).advance second = p.advance (first + second) := by
  have hfirst : first ≤ p.rest.length := by omega
  have hsecond : second ≤ (p.advance first).rest.length := by
    rw [advance_rest hfirst, List.length_drop]
    omega
  refine Parser.ext ?_ ?_ ?_
  · rw [advance_buffer, advance_buffer, advance_buffer]
  · rw [advance_position hsecond, advance_position h, advance_position hfirst, advance_buffer,
      Fragments.walk_walk p.placed.inside]
    dsimp only
    rw [List.drop_drop, Nat.add_assoc]
  · rw [advance_checkpoints, advance_checkpoints, advance_checkpoints]

/-! ## Reading -/

/-- `peek_to`: so many of the bytes that remain, or all of them. -/
def peek (p : Parser) (count : Nat) : List UInt8 :=
  Fragments.copy (p.buffer.fragments.drop p.position.fragment) p.position.offset count

theorem peek_eq : p.peek count = p.rest.take count := Fragments.copy_eq p.placed.inside

/-- `peek_buffer`: so many of the bytes that remain, as a buffer of their own. -/
def slice (p : Parser) (count : Nat) : Buffer :=
  ⟨Fragments.cut (p.buffer.fragments.drop p.position.fragment) p.position.offset count,
    Fragments.cut_nonempty p.placed p.drop_nonempty⟩

theorem slice_bytes : (p.slice count).bytes = p.rest.take count := Fragments.cut_flatten p.placed.inside

/-- `peek_current_fragment`: what remains of the fragment under the cursor. -/
def currentFragment (p : Parser) : List UInt8 :=
  ((p.buffer.fragments.drop p.position.fragment).headD []).drop p.position.offset

theorem currentFragment_prefix : p.currentFragment <+: p.rest := by
  have hplaced := p.placed.inside
  unfold currentFragment rest
  cases hdrop : p.buffer.fragments.drop p.position.fragment with
  | nil =>
    rw [List.headD_nil, List.drop_nil]
    exact List.nil_prefix
  | cons fragment more =>
    rw [hdrop] at hplaced
    rw [Fragments.rest_cons hplaced]
    exact List.prefix_append _ _

/-- A cursor is at the end when nothing remains of its fragment. -/
theorem currentFragment_eq_nil : p.currentFragment = [] ↔ p.rest = [] := by
  refine ⟨fun h => ?_, fun h => List.prefix_nil.mp (h ▸ currentFragment_prefix)⟩
  have hplaced := p.placed
  unfold Position.Placed at hplaced
  unfold currentFragment at h
  unfold rest
  cases hdrop : p.buffer.fragments.drop p.position.fragment with
  | nil => exact List.drop_nil
  | cons fragment more =>
    rw [hdrop] at hplaced h
    exact absurd (List.drop_eq_nil_iff.mp h) (Nat.not_le.mpr hplaced)

/-- The bytes that remain begin with some. -/
def Begins (p : Parser) (octets : List UInt8) : Prop := octets <+: p.rest

theorem Begins.length_le {octets : List UInt8} (h : p.Begins octets) : octets.length ≤ p.rest.length :=
  List.IsPrefix.length_le h

theorem Begins.take {octets : List UInt8} (h : p.Begins octets) :
    p.rest.take octets.length = octets := (List.prefix_iff_eq_take.mp h).symm

/-- So many bytes remain to be read. -/
theorem begins_take (h : count ≤ p.rest.length) :
    ∃ octets : List UInt8, octets.length = count ∧ p.Begins octets :=
  ⟨p.rest.take count, List.length_take_of_le h, List.take_prefix _ _⟩

/-- What remains begins with two parts when it begins with the first and goes on with the second. -/
theorem begins_append {first second : List UInt8} : p.Begins (first ++ second)
    ↔ p.Begins first ∧ (p.advance first.length).Begins second := by
  constructor
  · rintro ⟨more, hmore⟩
    have hfirst : p.Begins first := ⟨second ++ more, by rw [← hmore, List.append_assoc]⟩
    refine ⟨hfirst, ?_⟩
    unfold Begins
    rw [advance_rest hfirst.length_le, ← hmore, List.append_assoc, List.drop_left]
    exact List.prefix_append _ _
  · rintro ⟨hfirst, hsecond⟩
    unfold Begins at hsecond
    rw [advance_rest hfirst.length_le] at hsecond
    obtain ⟨more, hmore⟩ := hsecond
    refine ⟨more, ?_⟩
    calc first ++ second ++ more = first ++ p.rest.drop first.length := by
          rw [List.append_assoc, hmore]
      _ = p.rest.take first.length ++ p.rest.drop first.length := by rw [hfirst.take]
      _ = p.rest := List.take_append_drop _ _

/-- What remains is two parts when it begins with the first and the second is what remains then. -/
theorem rest_eq_append {first second : List UInt8} : p.rest = first ++ second
    ↔ p.Begins first ∧ (p.advance first.length).rest = second := by
  constructor
  · intro h
    have hfirst : p.Begins first := ⟨second, h.symm⟩
    refine ⟨hfirst, ?_⟩
    rw [advance_rest hfirst.length_le, h, List.drop_left]
  · rintro ⟨hfirst, h⟩
    rw [advance_rest hfirst.length_le] at h
    calc p.rest = p.rest.take first.length ++ p.rest.drop first.length :=
          (List.take_append_drop _ _).symm
      _ = first ++ second := by rw [hfirst.take, h]

/-! ## Checkpoints -/

/-- A parser with its position kept. -/
def marked (p : Parser) : Parser :=
  { p with
    checkpoints := p.position :: p.checkpoints
    kept := by
      intro checkpoint hmem
      rcases List.mem_cons.mp hmem with rfl | hmem
      · exact p.placed
      · exact p.kept checkpoint hmem }

/-- `push_checkpoint`. -/
def pushCheckpoint (p : Parser) : Except Errc Parser :=
  if p.checkpoints.length = maxParserCheckpoints then .error .resourceExhausted else .ok p.marked

/-- `rollback`. -/
def rollback (p : Parser) : Parser :=
  match h : p.checkpoints with
  | [] => p
  | checkpoint :: more =>
    { p with
      position := checkpoint
      checkpoints := more
      placed := p.kept checkpoint (h ▸ List.mem_cons_self ..)
      kept := fun other hmem => p.kept other (h ▸ List.mem_cons_of_mem _ hmem) }

/-- `commit`. -/
def commit (p : Parser) : Parser :=
  match h : p.checkpoints with
  | [] => p
  | _ :: more =>
    { p with
      checkpoints := more
      kept := fun other hmem => p.kept other (h ▸ List.mem_cons_of_mem _ hmem) }

theorem pushCheckpoint_eq_ok {p' : Parser} : p.pushCheckpoint = .ok p'
    ↔ p.checkpoints.length ≠ maxParserCheckpoints ∧ p' = p.marked := by
  unfold pushCheckpoint
  split
  next h => exact iff_of_false nofun fun hne => hne.1 h
  next h =>
    constructor
    · intro heq
      exact ⟨h, (Except.ok.inj heq).symm⟩
    · rintro ⟨_, rfl⟩
      rfl

theorem marked_checkpoints : p.marked.checkpoints = p.position :: p.checkpoints := rfl

theorem marked_consumed : p.marked.consumed = p.consumed := rfl

/-- Giving up a checkpoint leaves the cursor where it is. -/
theorem commit_fields {checkpoint : Position} {more : List Position}
    (hkept : p.checkpoints = checkpoint :: more) :
    p.commit.buffer = p.buffer ∧ p.commit.position = p.position ∧ p.commit.checkpoints = more := by
  unfold commit
  split
  next hnone => cases hnone.symm.trans hkept
  next other more' hsome =>
    obtain ⟨rfl, rfl⟩ := List.cons.inj (hsome.symm.trans hkept)
    exact ⟨rfl, rfl, rfl⟩

theorem commit_eq {q : Parser} {checkpoint : Position} (hbuffer : q.buffer = p.buffer)
    (hposition : q.position = p.position) (hkept : q.checkpoints = checkpoint :: p.checkpoints) :
    q.commit = p := by
  obtain ⟨hsame, hstays, hmore⟩ := commit_fields hkept
  exact Parser.ext (hsame.trans hbuffer) (hstays.trans hposition) hmore

/-- **Going back** to the position that was kept undoes whatever moved the cursor. -/
theorem rollback_eq {q : Parser} (hbuffer : q.buffer = p.buffer)
    (hkept : q.checkpoints = p.position :: p.checkpoints) : q.rollback = p := by
  unfold rollback
  split
  next hnone => cases hnone.symm.trans hkept
  next checkpoint more hsome =>
    obtain ⟨rfl, rfl⟩ := List.cons.inj (hsome.symm.trans hkept)
    exact Parser.ext hbuffer rfl rfl

theorem marked_advance_position : (p.marked.advance count).position = (p.advance count).position := by
  by_cases h : count ≤ p.rest.length
  · rw [advance_position (p := p) h, advance_position (p := p.marked) h]
    rfl
  · rw [advance_of_not_le (p := p) h, advance_of_not_le (p := p.marked) h]
    rfl

/-- **Keeping** what moved the cursor behind a checkpoint is having moved it. -/
theorem commit_marked_advance : (p.marked.advance count).commit = p.advance count := by
  refine @commit_eq _ _ p.position ?_ marked_advance_position ?_
  · rw [advance_buffer, advance_buffer]
    rfl
  · rw [advance_checkpoints, advance_checkpoints]
    exact marked_checkpoints

/-- What is cut out depends on the buffer and the position alone. -/
theorem slice_congr {q : Parser} (hbuffer : q.buffer = p.buffer) (hposition : q.position = p.position) :
    q.slice count = p.slice count := by
  unfold slice
  simp only [hbuffer, hposition]

theorem marked_advance_slice {length : Nat} :
    (p.marked.advance count).slice length = (p.advance count).slice length := by
  refine slice_congr ?_ marked_advance_position
  rw [advance_buffer, advance_buffer]
  rfl

end Parser

end KwaqueStorage.Records
