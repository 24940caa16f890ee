import Mathlib

/-!
# Half-open pieces that tile a range

Pieces of the natural numbers, each from a number up to another. A list of pieces is `Joined` from one
number to another when each piece begins where the one before it ended. For pieces that hold something,
that is the same as splitting the range: every number of it in one of the pieces, nothing outside, and
the pieces in order.
-/

namespace KwaqueStorage.Lib.Tiling

/-- A number lies in a piece. -/
def Holds (piece : Nat × Nat) (x : Nat) : Prop := piece.1 ≤ x ∧ x < piece.2

/-- Each piece begins where the one before it ended. -/
def Joined : Nat → Nat → List (Nat × Nat) → Prop
  | low, high, [] => low = high
  | low, high, piece :: rest => piece.1 = low ∧ Joined piece.2 high rest

/-- The numbers of a range are those of the pieces, and the pieces are in order. -/
def Splits (low high : Nat) (pieces : List (Nat × Nat)) : Prop :=
  (∀ x, (low ≤ x ∧ x < high) ↔ ∃ piece ∈ pieces, Holds piece x)
    ∧ pieces.Pairwise fun first second => first.2 ≤ second.1

variable {low high : Nat} {pieces : List (Nat × Nat)}

/-- Pieces joined through two lists meet where the first list ends. -/
theorem joined_append {more : List (Nat × Nat)} :
    Joined low high (pieces ++ more) ↔ ∃ mid, Joined low mid pieces ∧ Joined mid high more := by
  induction pieces generalizing low with
  | nil =>
    constructor
    · intro h
      exact ⟨low, rfl, h⟩
    · rintro ⟨_, rfl, h⟩
      exact h
  | cons piece rest ih =>
    constructor
    · rintro ⟨hfirst, hrest⟩
      obtain ⟨mid, hpieces, hmore⟩ := ih.mp hrest
      exact ⟨mid, ⟨hfirst, hpieces⟩, hmore⟩
    · rintro ⟨mid, ⟨hfirst, hpieces⟩, hmore⟩
      exact ⟨hfirst, ih.mpr ⟨mid, hpieces, hmore⟩⟩

/-- A range holds no more pieces than numbers. -/
theorem Joined.length_le (h : Joined low high pieces) (hpieces : ∀ piece ∈ pieces, piece.1 < piece.2) :
    low + pieces.length ≤ high := by
  induction pieces generalizing low with
  | nil => exact Nat.le_of_eq h
  | cons piece rest ih =>
    obtain ⟨hfirst, hrest⟩ := h
    have hpiece := hpieces piece (List.mem_cons_self ..)
    have hle := ih hrest fun other hmem => hpieces other (List.mem_cons_of_mem _ hmem)
    rw [List.length_cons]
    omega

theorem Joined.le (h : Joined low high pieces) (hpieces : ∀ piece ∈ pieces, piece.1 < piece.2) :
    low ≤ high := Nat.le_trans (Nat.le_add_right _ _) (h.length_le hpieces)

/-- Joined pieces lie in the range, one behind the other. -/
theorem Joined.splits (h : Joined low high pieces) (hpieces : ∀ piece ∈ pieces, piece.1 < piece.2) :
    Splits low high pieces := by
  induction pieces generalizing low with
  | nil =>
    obtain rfl : low = high := h
    refine ⟨fun x => ?_, List.Pairwise.nil⟩
    constructor
    · rintro ⟨hle, hlt⟩
      omega
    · rintro ⟨_, hmem, _⟩
      cases hmem
  | cons piece rest ih =>
    obtain ⟨rfl, hrest⟩ := h
    have hpiece := hpieces piece (List.mem_cons_self ..)
    have hothers : ∀ other ∈ rest, other.1 < other.2 :=
      fun other hmem => hpieces other (List.mem_cons_of_mem _ hmem)
    have hle := hrest.le hothers
    obtain ⟨hcover, hordered⟩ := ih hrest hothers
    constructor
    · intro x
      constructor
      · rintro ⟨hlow, hhigh⟩
        by_cases hx : x < piece.2
        · exact ⟨piece, List.mem_cons_self .., hlow, hx⟩
        · obtain ⟨other, hmem, hholds⟩ := (hcover x).mp ⟨by omega, hhigh⟩
          exact ⟨other, List.mem_cons_of_mem _ hmem, hholds⟩
      · rintro ⟨other, hmem, hholds⟩
        rcases List.mem_cons.mp hmem with rfl | hmem
        · exact ⟨hholds.1, Nat.lt_of_lt_of_le hholds.2 hle⟩
        · have hin := (hcover x).mpr ⟨other, hmem, hholds⟩
          exact ⟨by omega, hin.2⟩
    · refine List.pairwise_cons.mpr ⟨?_, hordered⟩
      intro other hmem
      exact ((hcover other.1).mpr ⟨other, hmem, Nat.le_refl _, hothers other hmem⟩).1

/-- Pieces that split a range are joined. -/
theorem Splits.joined (h : Splits low high pieces) (hle : low ≤ high)
    (hpieces : ∀ piece ∈ pieces, piece.1 < piece.2) : Joined low high pieces := by
  induction pieces generalizing low with
  | nil =>
    by_contra hne
    have hlt : low < high := Nat.lt_of_le_of_ne hle hne
    obtain ⟨_, hmem, _⟩ := (h.1 low).mp ⟨Nat.le_refl _, hlt⟩
    cases hmem
  | cons piece rest ih =>
    obtain ⟨hcover, hordered⟩ := h
    obtain ⟨hbefore, hordered⟩ := List.pairwise_cons.mp hordered
    have hpiece := hpieces piece (List.mem_cons_self ..)
    have hothers : ∀ other ∈ rest, other.1 < other.2 :=
      fun other hmem => hpieces other (List.mem_cons_of_mem _ hmem)
    have hfirst := (hcover piece.1).mpr ⟨piece, List.mem_cons_self .., Nat.le_refl _, hpiece⟩
    have hlast := (hcover (piece.2 - 1)).mpr ⟨piece, List.mem_cons_self .., by omega, by omega⟩
    -- the lowest number is in some piece, and no piece behind the first reaches that far down
    have hbegin : piece.1 = low := by
      obtain ⟨other, hmem, hholds⟩ := (hcover low).mp ⟨Nat.le_refl _, by omega⟩
      rcases List.mem_cons.mp hmem with rfl | hmem
      · have := hholds.1
        omega
      · have hbehind := hbefore other hmem
        have := hholds.1
        omega
    refine ⟨hbegin, ih ⟨fun x => ?_, hordered⟩ (by omega) hothers⟩
    constructor
    · rintro ⟨hlow, hhigh⟩
      obtain ⟨other, hmem, hholds⟩ := (hcover x).mp ⟨by omega, hhigh⟩
      rcases List.mem_cons.mp hmem with rfl | hmem
      · have := hholds.2
        omega
      · exact ⟨other, hmem, hholds⟩
    · rintro ⟨other, hmem, hholds⟩
      have hin := (hcover x).mpr ⟨other, List.mem_cons_of_mem _ hmem, hholds⟩
      have hbehind := hbefore other hmem
      have := hholds.1
      exact ⟨by omega, hin.2⟩

/-- **Joined pieces are those that split the range.** -/
theorem joined_iff (hle : low ≤ high) (hpieces : ∀ piece ∈ pieces, piece.1 < piece.2) :
    Joined low high pieces ↔ Splits low high pieces :=
  ⟨fun h => h.splits hpieces, fun h => h.joined hle hpieces⟩

end KwaqueStorage.Lib.Tiling
