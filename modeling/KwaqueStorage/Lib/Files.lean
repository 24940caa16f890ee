import Mathlib

/-!
# Files as bytes at places

A file is a list of bytes, and reads as zeros after its end. A write puts bytes at a place; one that begins
after the end of the file leaves zeros between. What a write does is said place by place (`byteAt_writeAt`),
and so is what several pieces laid over a file are (`overlay`), so that a program which assembles its writes in
any way can be held against the pieces it was to lay.
-/

namespace KwaqueStorage.Lib

/-- The byte at a place, and zero after the end. -/
def byteAt (file : List UInt8) (place : Nat) : UInt8 := file.getD place 0

/-- A write. One of no bytes does nothing. -/
def writeAt (file : List UInt8) (at_ : Nat) (data : List UInt8) : List UInt8 :=
  if data = [] then file
  else file.take at_ ++ List.replicate (at_ - file.length) 0 ++ data ++ file.drop (at_ + data.length)

variable {file data : List UInt8} {at_ place : Nat}

theorem byteAt_of_lt (h : place < file.length) : file[place]? = some (byteAt file place) := by
  rw [byteAt, List.getD_eq_getElem?_getD, List.getElem?_eq_getElem h, Option.getD_some]

theorem byteAt_of_le (h : file.length ≤ place) : byteAt file place = 0 := by
  rw [byteAt, List.getD_eq_getElem?_getD, List.getElem?_eq_none_iff.mpr h, Option.getD_none]

theorem byteAt_append (front back : List UInt8) (place : Nat) :
    byteAt (front ++ back) place =
      if place < front.length then byteAt front place else byteAt back (place - front.length) := by
  unfold byteAt
  rw [List.getD_eq_getElem?_getD, List.getElem?_append]
  split
  next => rw [List.getD_eq_getElem?_getD]
  next => rw [List.getD_eq_getElem?_getD]

theorem byteAt_zeros (count place : Nat) : byteAt (List.replicate count 0) place = 0 := by
  unfold byteAt
  rw [List.getD_eq_getElem?_getD, List.getElem?_replicate]
  split
  next => rfl
  next => rfl

theorem byteAt_take (h : place < at_) : byteAt (file.take at_) place = byteAt file place := by
  unfold byteAt
  rw [List.getD_eq_getElem?_getD, List.getD_eq_getElem?_getD, List.getElem?_take_of_lt h]

theorem byteAt_drop : byteAt (file.drop at_) place = byteAt file (at_ + place) := by
  unfold byteAt
  rw [List.getD_eq_getElem?_getD, List.getD_eq_getElem?_getD, List.getElem?_drop]

/-- **What a write does**, place by place. -/
theorem byteAt_writeAt (file : List UInt8) (at_ : Nat) (data : List UInt8) (place : Nat) :
    byteAt (writeAt file at_ data) place =
      if at_ ≤ place ∧ place < at_ + data.length then byteAt data (place - at_) else byteAt file place := by
  unfold writeAt
  split
  next hnil =>
    subst hnil
    rw [List.length_nil, if_neg (by omega)]
  next =>
    have hfront : (file.take at_ ++ List.replicate (at_ - file.length) 0).length = at_ := by
      rw [List.length_append, List.length_take, List.length_replicate]
      omega
    rw [List.append_assoc, byteAt_append, hfront]
    split
    next hlt =>
      rw [if_neg (by omega), byteAt_append, List.length_take]
      split
      next => exact byteAt_take hlt
      next hge => rw [byteAt_zeros, byteAt_of_le (by omega)]
    next hge =>
      rw [byteAt_append]
      split
      next => rw [if_pos (by omega)]
      next =>
        rw [if_neg (by omega), byteAt_drop]
        congr 1
        omega

theorem length_writeAt (file : List UInt8) (at_ : Nat) (data : List UInt8) :
    (writeAt file at_ data).length =
      if data = [] then file.length else max file.length (at_ + data.length) := by
  unfold writeAt
  split
  next => rfl
  next =>
    simp only [List.length_append, List.length_take, List.length_replicate, List.length_drop]
    omega

theorem le_length_writeAt : file.length ≤ (writeAt file at_ data).length := by
  rw [length_writeAt]
  split
  next => exact Nat.le_refl _
  next => exact Nat.le_max_left _ _

theorem length_writeAt_mono {data' : List UInt8} (h : data.length ≤ data'.length) :
    (writeAt file at_ data).length ≤ (writeAt file at_ data').length := by
  rw [length_writeAt, length_writeAt]
  by_cases hnil : data = []
  · rw [if_pos hnil, ← length_writeAt]
    exact le_length_writeAt
  · have hnil' : data' ≠ [] := by
      rintro rfl
      exact hnil (List.eq_nil_of_length_eq_zero (Nat.le_zero.mp h))
    rw [if_neg hnil, if_neg hnil']
    omega

/-- What is written lies in the file. -/
theorem lt_length_writeAt (hplace : place < at_ + data.length) (hdata : at_ ≤ place) :
    place < (writeAt file at_ data).length := by
  have hne : data ≠ [] := by
    rintro rfl
    rw [List.length_nil] at hplace
    omega
  rw [length_writeAt, if_neg hne]
  omega

/-- A write that goes on with the bytes of the file changes nothing more. -/
theorem byteAt_writeAt_append_own {more : List UInt8}
    (h : ∀ k, k < more.length → byteAt more k = byteAt file (at_ + data.length + k)) (place : Nat) :
    byteAt (writeAt file at_ (data ++ more)) place = byteAt (writeAt file at_ data) place := by
  rw [byteAt_writeAt, byteAt_writeAt, List.length_append, byteAt_append]
  by_cases hbefore : at_ ≤ place ∧ place < at_ + data.length
  · rw [if_pos hbefore, if_pos (by omega), if_pos (by omega)]
  rw [if_neg hbefore]
  by_cases hmore : at_ ≤ place ∧ place < at_ + (data.length + more.length)
  · rw [if_pos hmore, if_neg (by omega), h _ (by omega)]
    congr 1
    omega
  · rw [if_neg hmore]

/-- A write that goes on with other bytes lays these over what was there. -/
theorem byteAt_writeAt_append {more : List UInt8} (place : Nat) :
    byteAt (writeAt file at_ (data ++ more)) place =
      if at_ + data.length ≤ place ∧ place < at_ + data.length + more.length then
        byteAt more (place - (at_ + data.length))
      else byteAt (writeAt file at_ data) place := by
  rw [byteAt_writeAt, byteAt_writeAt, List.length_append, byteAt_append]
  by_cases hmore : at_ + data.length ≤ place ∧ place < at_ + data.length + more.length
  · rw [if_pos (by omega), if_neg (by omega), if_pos hmore]
    congr 1
    omega
  rw [if_neg hmore]
  by_cases hbefore : at_ ≤ place ∧ place < at_ + data.length
  · rw [if_pos hbefore, if_pos (by omega), if_pos (by omega)]
  · rw [if_neg hbefore, if_neg (by omega)]

/-! ## Pieces laid over a file -/

/-- Bytes and their place. -/
structure Piece where
  at_ : Nat
  bytes : List UInt8
  deriving DecidableEq

namespace Piece

def end_ (piece : Piece) : Nat := piece.at_ + piece.bytes.length

def Covers (piece : Piece) (place : Nat) : Prop := piece.at_ ≤ place ∧ place < piece.end_

instance (piece : Piece) (place : Nat) : Decidable (piece.Covers place) := by
  unfold Covers
  infer_instance

/-- Pieces in order, none over another. -/
def InOrder (pieces : List Piece) : Prop := pieces.Pairwise fun a b => a.end_ ≤ b.at_

/-- Bytes with one piece laid over them. -/
def onto (piece : Piece) (base : Nat → UInt8) (place : Nat) : UInt8 :=
  if piece.Covers place then byteAt piece.bytes (place - piece.at_) else base place

/-- Bytes with pieces laid over them, one after another. -/
def overlay (base : Nat → UInt8) (pieces : List Piece) : Nat → UInt8 :=
  pieces.foldl (fun under piece => piece.onto under) base

variable {base : Nat → UInt8} {pieces : List Piece} {piece : Piece}

theorem overlay_concat (base : Nat → UInt8) (pieces : List Piece) (piece : Piece) :
    overlay base (pieces ++ [piece]) = piece.onto (overlay base pieces) := by
  unfold overlay
  rw [List.foldl_append]
  rfl

/-- A place that no piece covers keeps its byte. -/
theorem overlay_outside (h : ∀ piece ∈ pieces, ¬ piece.Covers place) : overlay base pieces place = base place := by
  induction pieces using List.reverseRecOn with
  | nil => rfl
  | append_singleton pieces piece ih =>
    rw [overlay_concat, onto, if_neg (h piece (List.mem_append_right _ (List.mem_singleton_self _)))]
    exact ih fun p hp => h p (List.mem_append_left _ hp)

/-- A place that a piece covers has the byte of that piece. -/
theorem overlay_inside (horder : InOrder pieces) (hmem : piece ∈ pieces) (hcovers : piece.Covers place) :
    overlay base pieces place = byteAt piece.bytes (place - piece.at_) := by
  induction pieces using List.reverseRecOn with
  | nil => cases hmem
  | append_singleton pieces last ih =>
    obtain ⟨hpieces, -, hlast⟩ := List.pairwise_append.mp horder
    rw [overlay_concat, onto]
    rcases List.mem_append.mp hmem with hmem | hmem
    · -- the last piece begins after this one ends
      have hbefore := hlast piece hmem last (List.mem_singleton_self _)
      have hnot : ¬ last.Covers place := by
        intro hc
        have := hc.1
        have := hcovers.2
        omega
      rw [if_neg hnot]
      exact ih hpieces hmem
    · rw [List.mem_singleton.mp hmem] at hcovers ⊢
      rw [if_pos hcovers]

end Piece

end KwaqueStorage.Lib
