import KwaqueStorage.Base.Types
import KwaqueStorage.Lib.Checks
import KwaqueStorage.Lib.Tiling

/-!
# Intervals of the keyspace

Keys are hashed to points of 64 bits. An interval is a point and a depth: it holds the points that agree
with it in so many high bits, and its own low bits are zero. The end of the last interval is no point,
so a boundary is a point or the end of all.

The bit operations are those of the source; `contains_iff` says what they mean, as the half-open piece of
numbers from one boundary to the other.
-/

namespace KwaqueStorage.Keyspace

open Lib

/-- `keyspace_boundary`. -/
inductive Boundary
  | ordinary (value : UInt64)
  | fullEnd
  deriving DecidableEq

/-- `operator<` of boundaries: the end of all lies behind every point. -/
def Boundary.lt : Boundary → Boundary → Bool
  | .ordinary a, .ordinary b => decide (a < b)
  | .ordinary _, .fullEnd => true
  | .fullEnd, _ => false

/-- `prefix_mask`. -/
def prefixMask (depth : UInt64) : UInt64 :=
  if depth = 0 then 0 else 18446744073709551615 <<< (64 - depth)

/-- `keyspace_interval`: what `make` checks is part of it. -/
structure Interval where
  bits : UInt64
  depth : UInt64
  deep : depth ≤ 64
  aligned : bits &&& ~~~(prefixMask depth) = 0
  deriving DecidableEq

/-- `keyspace_interval::make`. -/
def Interval.make (bits depth : UInt64) : Except Errc Interval :=
  if deep : depth ≤ 64 then
    if aligned : bits &&& ~~~(prefixMask depth) = 0 then .ok ⟨bits, depth, deep, aligned⟩
    else .error .invalidArgument
  else .error .invalidArgument

/-- `keyspace_interval::root`. -/
def Interval.root : Interval := ⟨0, 0, by decide, by decide⟩

namespace Interval

/-- `begin`. -/
def first (i : Interval) : Boundary := .ordinary i.bits

/-- `end`. -/
def past (i : Interval) : Boundary :=
  let last := i.bits ||| ~~~(prefixMask i.depth)
  if last = 18446744073709551615 then .fullEnd else .ordinary (last + 1)

/-- `contains`, of a point. -/
def contains (i : Interval) (point : UInt64) : Bool := decide (point &&& prefixMask i.depth = i.bits)

end Interval

/-! ## Boundaries as numbers -/

/-- A boundary as a number: the end of all is what no point reaches. -/
def Boundary.number : Boundary → Nat
  | .ordinary value => value.toNat
  | .fullEnd => 18446744073709551616

theorem Boundary.number_inj {a b : Boundary} : a.number = b.number ↔ a = b := by
  constructor
  · intro h
    cases a with
    | ordinary a =>
      cases b with
      | ordinary b => exact congrArg _ (UInt64.toNat_inj.mp h)
      | fullEnd =>
        have := a.toNat_lt
        change a.toNat = 18446744073709551616 at h
        omega
    | fullEnd =>
      cases b with
      | ordinary b =>
        have := b.toNat_lt
        change 18446744073709551616 = b.toNat at h
        omega
      | fullEnd => rfl
  · rintro rfl
    rfl

theorem Boundary.lt_iff {a b : Boundary} : a.lt b = true ↔ a.number < b.number := by
  cases a with
  | ordinary a =>
    cases b with
    | ordinary b => exact decide_eq_true_iff.trans UInt64.lt_iff_toNat_lt
    | fullEnd => exact iff_of_true rfl a.toNat_lt
  | fullEnd =>
    refine iff_of_false nofun ?_
    cases b with
    | ordinary b =>
      have := b.toNat_lt
      change ¬18446744073709551616 < b.toNat
      omega
    | fullEnd => exact Nat.lt_irrefl _

/-! ## What the bits mean -/

/-- How many points an interval of a depth holds. -/
def span (depth : UInt64) : Nat := 2 ^ (64 - depth.toNat)

theorem span_pos {depth : UInt64} : 0 < span depth := Nat.two_pow_pos _

/-- A fact about every depth is one about each of them. -/
theorem forall_depth {P : UInt64 → Prop} {depth : UInt64} (h : depth ≤ 64)
    (hall : ∀ d : Fin 65, P (UInt64.ofNat d)) : P depth := by
  have hle : depth.toNat ≤ 64 := UInt64.le_iff_toNat_le.mp h
  have hdepth := hall ⟨depth.toNat, by omega⟩
  rwa [UInt64.ofNat_toNat] at hdepth

/-- The low bits, as a number: one less than the points. -/
theorem complement_prefixMask {depth : UInt64} (h : depth ≤ 64) :
    (~~~(prefixMask depth)).toNat = span depth - 1 :=
  forall_depth (P := fun depth => (~~~(prefixMask depth)).toNat = span depth - 1) h (by decide +kernel)

/-- The high bits, as a number. -/
theorem prefixMask_toNat {depth : UInt64} (h : depth ≤ 64) :
    (prefixMask depth).toNat = (2 ^ depth.toNat - 1) * span depth :=
  forall_depth (P := fun depth => (prefixMask depth).toNat = (2 ^ depth.toNat - 1) * span depth) h
    (by decide +kernel)

/-- Dropping the low bits of a number. -/
theorem and_high {x high low : Nat} (hx : x < 2 ^ (high + low)) :
    x &&& (2 ^ high - 1) * 2 ^ low = x / 2 ^ low * 2 ^ low := by
  rw [← Nat.shiftLeft_eq, ← Nat.shiftLeft_eq, ← Nat.shiftRight_eq_div_pow]
  refine Nat.eq_of_testBit_eq fun i => ?_
  rw [Nat.testBit_and, Nat.testBit_shiftLeft, Nat.testBit_shiftLeft, Nat.testBit_two_pow_sub_one,
    Nat.testBit_shiftRight]
  by_cases hlow : low ≤ i
  · by_cases hhigh : i < high + low
    · have hbit : low + (i - low) = i := by omega
      have hless : i - low < high := by omega
      simp only [hlow, hless, hbit, decide_true, Bool.true_and, Bool.and_true]
    · have hnone : x.testBit i = false := by
        refine Nat.testBit_lt_two_pow (Nat.lt_of_lt_of_le hx ?_)
        exact Nat.pow_le_pow_right (by decide) (by omega)
      have hbit : low + (i - low) = i := by omega
      rw [hnone, hbit, hnone, Bool.false_and, Bool.and_false]
  · simp only [hlow, decide_false, Bool.false_and, Bool.and_false]

theorem and_prefixMask {point depth : UInt64} (h : depth ≤ 64) :
    (point &&& prefixMask depth).toNat = point.toNat / span depth * span depth := by
  have hle : depth.toNat ≤ 64 := UInt64.le_iff_toNat_le.mp h
  rw [UInt64.toNat_and, prefixMask_toNat h]
  refine and_high ?_
  rw [Nat.add_sub_cancel' hle]
  exact point.toNat_lt

namespace Interval

variable {i : Interval} {point : UInt64}

/-- The low bits of an interval are zero: it begins at a multiple of the points it holds. -/
theorem dvd (i : Interval) : span i.depth ∣ i.bits.toNat := by
  have haligned := congrArg UInt64.toNat i.aligned
  rw [UInt64.toNat_and, complement_prefixMask i.deep] at haligned
  unfold span at haligned ⊢
  rw [Nat.and_two_pow_sub_one_eq_mod] at haligned
  exact Nat.dvd_of_mod_eq_zero haligned

/-- An interval ends within the space. -/
theorem end_le (i : Interval) : i.bits.toNat + span i.depth ≤ 18446744073709551616 := by
  obtain ⟨q, hq⟩ := i.dvd
  have hle : i.depth.toNat ≤ 64 := UInt64.le_iff_toNat_le.mp i.deep
  have hwhole : 18446744073709551616 = span i.depth * 2 ^ i.depth.toNat := by
    unfold span
    rw [← Nat.pow_add, Nat.sub_add_cancel hle]
  have hlt := i.bits.toNat_lt
  rw [show (2 : Nat) ^ 64 = 18446744073709551616 from rfl, hwhole, hq] at hlt
  have hless := Nat.lt_of_mul_lt_mul_left hlt
  rw [hwhole, hq, ← Nat.mul_succ]
  exact Nat.mul_le_mul_left _ hless

/-- The last point of an interval. -/
theorem last_toNat (i : Interval) :
    (i.bits ||| ~~~(prefixMask i.depth)).toNat = i.bits.toNat + (span i.depth - 1) := by
  obtain ⟨q, hq⟩ := i.dvd
  rw [UInt64.toNat_or, complement_prefixMask i.deep, hq]
  unfold span
  exact (Nat.two_pow_add_eq_or_of_lt (Nat.sub_lt (Nat.two_pow_pos _) Nat.one_pos) q).symm

theorem first_number (i : Interval) : i.first.number = i.bits.toNat := rfl

theorem past_number (i : Interval) : i.past.number = i.bits.toNat + span i.depth := by
  have hlast := i.last_toNat
  have hle := i.end_le
  have hpos := @span_pos i.depth
  unfold past
  dsimp only
  split
  next heq =>
    rw [heq] at hlast
    change 18446744073709551615 = _ at hlast
    change 18446744073709551616 = _
    omega
  next hne =>
    have hsmall : (i.bits ||| ~~~(prefixMask i.depth)).toNat ≠ 18446744073709551615 :=
      fun h => hne (UInt64.toNat_inj.mp h)
    change ((i.bits ||| ~~~(prefixMask i.depth)) + 1).toNat = _
    rw [UInt64.toNat_add, hlast]
    change (_ + 1) % 2 ^ 64 = _
    rw [Nat.mod_eq_of_lt (by omega)]
    omega

/-- **What an interval holds**: the points from one boundary to the other. -/
theorem contains_iff : i.contains point = true
    ↔ Tiling.Holds (i.first.number, i.past.number) point.toNat := by
  obtain ⟨q, hq⟩ := i.dvd
  have hpos := @span_pos i.depth
  unfold contains Tiling.Holds
  rw [decide_eq_true_iff, ← UInt64.toNat_inj, and_prefixMask i.deep, first_number, past_number]
  dsimp only
  rw [hq, Nat.mul_comm (span i.depth) q]
  constructor
  · intro h
    have hmod := Nat.div_add_mod point.toNat (span i.depth)
    have hless := Nat.mod_lt point.toNat hpos
    rw [Nat.mul_comm, h] at hmod
    omega
  · rintro ⟨hle, hlt⟩
    have hdiv : point.toNat / span i.depth = q := by
      refine Nat.div_eq_of_lt_le ?_ ?_
      · exact hle
      · rw [Nat.succ_mul]
        exact hlt
    rw [hdiv]

theorem first_lt_past (i : Interval) : i.first.number < i.past.number := by
  rw [first_number, past_number]
  have := @span_pos i.depth
  omega

end Interval

end KwaqueStorage.Keyspace
