import Mathlib

/-!
# A list in fragments

A sequence kept as fragments, read through a cursor: the fragments from the cursor's on, and an offset into
the first of them. Reading, moving on and cutting out walk the fragments; what they mean is what they do to
the items that remain, and how these are cut into fragments does not show.
-/

namespace KwaqueStorage.Lib.Fragments

variable {α : Type*}

/-- The items that remain from an offset into the first of some fragments. -/
def rest (fragments : List (List α)) (offset : Nat) : List α := fragments.flatten.drop offset

/-- A cursor lies inside the first fragment, or at the end with nothing skipped. -/
def Placed : List (List α) → Nat → Prop
  | [], offset => offset = 0
  | fragment :: _, offset => offset < fragment.length

instance : (fragments : List (List α)) → (offset : Nat) → Decidable (Placed fragments offset)
  | [], offset => inferInstanceAs (Decidable (offset = 0))
  | fragment :: _, offset => inferInstanceAs (Decidable (offset < fragment.length))

/-- Moving on by so many items: how many fragments are passed, and the offset into the next. -/
def walk : List (List α) → Nat → Nat → Nat × Nat
  | [], offset, _ => (0, offset)
  | fragment :: more, offset, count =>
    if count < fragment.length - offset then (0, offset + count)
    else
      let passed := walk more 0 (count - (fragment.length - offset))
      (passed.1 + 1, passed.2)

/-- Copying out so many items. -/
def copy : List (List α) → Nat → Nat → List α
  | [], _, _ => []
  | fragment :: more, offset, count =>
    let span := min (fragment.length - offset) count
    (fragment.drop offset).take span ++ copy more 0 (count - span)

/-- Cutting out so many items, as fragments. -/
def cut : List (List α) → Nat → Nat → List (List α)
  | [], _, _ => []
  | fragment :: more, offset, count =>
    if count = 0 then []
    else
      let span := min (fragment.length - offset) count
      (fragment.drop offset).take span :: cut more 0 (count - span)

theorem rest_cons {fragment : List α} {more : List (List α)} {offset : Nat}
    (h : offset ≤ fragment.length) :
    rest (fragment :: more) offset = fragment.drop offset ++ rest more 0 := by
  unfold rest
  rw [List.flatten_cons, List.drop_append_of_le_length h, List.drop_zero]

/-- A cursor that does not pass the first fragment. -/
def Inside : List (List α) → Nat → Prop
  | [], _ => True
  | fragment :: _, offset => offset ≤ fragment.length

variable {fragments : List (List α)}

theorem Inside.zero : Inside fragments 0 := by
  cases fragments with
  | nil => trivial
  | cons fragment more => exact Nat.zero_le _

theorem Placed.inside {offset : Nat} (h : Placed fragments offset) :
    Inside fragments offset := by
  cases fragments with
  | nil => trivial
  | cons fragment more => exact Nat.le_of_lt h

theorem Placed.zero (h : ∀ fragment ∈ fragments, fragment ≠ []) :
    Placed fragments 0 := by
  cases fragments with
  | nil => rfl
  | cons fragment more => exact List.length_pos_iff.mpr (h fragment (List.mem_cons_self ..))

variable {offset count : Nat}

/-- What is read of one fragment: no more than it holds. -/
theorem take_span {fragment : List α} :
    (fragment.drop offset).take (min (fragment.length - offset) count)
      = (fragment.drop offset).take count := by
  rw [← List.length_drop, Nat.min_comm, ← List.take_eq_take_min]

/-- **Copying out** is taking from what remains. -/
theorem copy_eq (h : Inside fragments offset) :
    copy fragments offset count = (rest fragments offset).take count := by
  induction fragments generalizing offset count with
  | nil => rw [copy, rest, List.flatten_nil, List.drop_nil, List.take_nil]
  | cons fragment more ih =>
    have hleft : count - min (fragment.length - offset) count = count - (fragment.length - offset) := by
      omega
    rw [copy, rest_cons h, List.take_append, ih Inside.zero, take_span, hleft, List.length_drop]

/-- **Cutting out** keeps the items. -/
theorem cut_flatten (h : Inside fragments offset) :
    (cut fragments offset count).flatten = (rest fragments offset).take count := by
  induction fragments generalizing offset count with
  | nil => rw [cut, rest, List.flatten_nil, List.drop_nil, List.take_nil]
  | cons fragment more ih =>
    have hleft : count - min (fragment.length - offset) count = count - (fragment.length - offset) := by
      omega
    rw [cut]
    split
    next hzero => rw [hzero, List.take_zero, List.flatten_nil]
    next =>
      rw [List.flatten_cons, rest_cons h, List.take_append, ih Inside.zero, take_span, hleft,
        List.length_drop]

/-- No fragment that is cut out is empty, where none was. -/
theorem cut_nonempty (hplaced : Placed fragments offset) (h : ∀ fragment ∈ fragments, fragment ≠ [])
    : ∀ fragment ∈ cut fragments offset count,
      fragment ≠ [] := by
  induction fragments generalizing offset count with
  | nil => exact nofun
  | cons fragment more ih =>
    rw [cut]
    split
    next => exact nofun
    next hcount =>
      have hmore : ∀ other ∈ more, other ≠ [] := fun other hmem => h other (List.mem_cons_of_mem _ hmem)
      intro other hmem
      rcases List.mem_cons.mp hmem with rfl | hmem
      · have hlt : offset < fragment.length := hplaced
        rw [← List.length_pos_iff, List.length_take, List.length_drop]
        omega
      · exact ih (Placed.zero hmore) hmore other hmem

/-- Fragments that are cut out are at most those from the cursor on. -/
theorem cut_length_le :
    (cut fragments offset count).length ≤ fragments.length := by
  induction fragments generalizing offset count with
  | nil => exact Nat.le_refl _
  | cons fragment more ih =>
    rw [cut]
    split
    next => exact Nat.zero_le _
    next => exact Nat.succ_le_succ ih

/-- **Moving on** leaves what comes after. -/
theorem walk_rest {fragments : List (List α)} {offset count : Nat} (h : Inside fragments offset) :
    rest (fragments.drop (walk fragments offset count).1) (walk fragments offset count).2
      = (rest fragments offset).drop count := by
  induction fragments generalizing offset count with
  | nil => simp only [walk, rest, List.drop_nil, List.flatten_nil]
  | cons fragment more ih =>
    have hlength : (fragment.drop offset).length = fragment.length - offset := List.length_drop
    rw [walk]
    split
    next hlt =>
      have hle : offset + count ≤ fragment.length := by omega
      rw [List.drop_zero, rest_cons hle, rest_cons h, List.drop_append_of_le_length (by omega),
        List.drop_drop]
    next hge =>
      have hnone : (fragment.drop offset).drop count = [] := List.drop_eq_nil_of_le (by omega)
      dsimp only
      rw [List.drop_succ_cons, ih Inside.zero, rest_cons h, List.drop_append, hlength, hnone,
        List.nil_append]

/-- Moving on keeps a cursor placed, within what remains. -/
theorem walk_placed (hplaced : Placed fragments offset) (h : ∀ fragment ∈ fragments, fragment ≠ [])
    (hle : count ≤ (rest fragments offset).length) :
    Placed (fragments.drop (walk fragments offset count).1) (walk fragments offset count).2 := by
  induction fragments generalizing offset count with
  | nil => exact hplaced
  | cons fragment more ih =>
    have hlength : (fragment.drop offset).length = fragment.length - offset := List.length_drop
    have hmore : ∀ other ∈ more, other ≠ [] := fun other hmem => h other (List.mem_cons_of_mem _ hmem)
    rw [rest_cons hplaced.inside, List.length_append, hlength] at hle
    rw [walk]
    split
    next hlt =>
      change offset + count < fragment.length
      omega
    next hge =>
      dsimp only
      rw [List.drop_succ_cons]
      exact ih (Placed.zero hmore) hmore (by omega)

theorem walk_zero {offset : Nat} (h : Placed fragments offset) :
    walk fragments offset 0 = (0, offset) := by
  cases fragments with
  | nil => rfl
  | cons fragment more =>
    have hlt : offset < fragment.length := h
    rw [walk, if_pos (by omega), Nat.add_zero]

/-- Moving on twice is moving on once. -/
theorem walk_walk {offset first second : Nat} (h : Inside fragments offset) :
    walk fragments offset (first + second)
      = let passed := walk fragments offset first
        let more := walk (fragments.drop passed.1) passed.2 second
        (passed.1 + more.1, more.2) := by
  induction fragments generalizing offset first with
  | nil => simp only [walk, List.drop_nil]
  | cons fragment more ih =>
    have hinside : offset ≤ fragment.length := h
    by_cases hfirst : first < fragment.length - offset
    · have hpassed : walk (fragment :: more) offset first = (0, offset + first) := by
        rw [walk, if_pos hfirst]
      simp only [hpassed, List.drop_zero, Nat.zero_add]
      rw [walk, walk]
      by_cases hboth : first + second < fragment.length - offset
      · rw [if_pos hboth, if_pos (by omega), Nat.add_assoc]
      · have hleft : second - (fragment.length - (offset + first))
            = first + second - (fragment.length - offset) := by omega
        rw [if_neg hboth, if_neg (by omega), hleft]
    · have hpassed : walk (fragment :: more) offset first
          = ((walk more 0 (first - (fragment.length - offset))).1 + 1,
            (walk more 0 (first - (fragment.length - offset))).2) := by
        rw [walk, if_neg hfirst]
      have hleft : first + second - (fragment.length - offset)
          = first - (fragment.length - offset) + second := by omega
      simp only [hpassed, List.drop_succ_cons]
      rw [walk, if_neg (by omega), hleft, ih Inside.zero]
      dsimp only
      rw [Nat.add_right_comm]

/-! ## Pieces of one size -/

/-- Cutting into pieces of one size, the last one as long as what is left; so many pieces at most. -/
def pieces (width : Nat) : Nat → List α → List (List α)
  | 0, _ => []
  | _ + 1, [] => []
  | fuel + 1, item :: rest =>
    (item :: rest).take width :: pieces width fuel ((item :: rest).drop width)

/-- Enough pieces for all items: each holds one at least. -/
def chunks (width : Nat) (items : List α) : List (List α) := pieces width items.length items

theorem pieces_flatten {width fuel : Nat} {items : List α} (hwidth : 0 < width)
    (hfuel : items.length ≤ fuel) : (pieces width fuel items).flatten = items := by
  induction fuel generalizing items with
  | zero => exact (List.length_eq_zero_iff.mp (Nat.le_zero.mp hfuel)).symm
  | succ fuel ih =>
    cases items with
    | nil => rfl
    | cons item rest =>
      have hless : ((item :: rest).drop width).length ≤ fuel := by
        rw [List.length_drop]
        omega
      rw [pieces, List.flatten_cons, ih hless, List.take_append_drop]

theorem chunks_flatten {width : Nat} {items : List α} (hwidth : 0 < width) :
    (chunks width items).flatten = items := pieces_flatten hwidth (Nat.le_refl _)

theorem pieces_nonempty {width fuel : Nat} {items : List α} (hwidth : 0 < width) :
    ∀ piece ∈ pieces width fuel items, piece ≠ [] := by
  induction fuel generalizing items with
  | zero => exact nofun
  | succ fuel ih =>
    cases items with
    | nil => exact nofun
    | cons item rest =>
      intro piece hmem
      rcases List.mem_cons.mp hmem with rfl | hmem
      · cases width with
        | zero => cases hwidth
        | succ width => exact List.cons_ne_nil _ _
      · exact ih piece hmem

theorem chunks_nonempty {width : Nat} {items : List α} (hwidth : 0 < width) :
    ∀ piece ∈ chunks width items, piece ≠ [] := pieces_nonempty hwidth

end KwaqueStorage.Lib.Fragments
