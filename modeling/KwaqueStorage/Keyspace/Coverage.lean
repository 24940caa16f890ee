import KwaqueStorage.Keyspace.Interval

/-!
# Coverage of the keyspace

`ordered_keyspace_coverage` is fed intervals in order and keeps one boundary: where the next one has to
begin. It never looks at a point. `coverage_iff_partition` says that it accepts exactly the sequences that
partition its target, point by point and in order.
-/

namespace KwaqueStorage.Keyspace

open Lib

/-- `ordered_keyspace_coverage`. -/
structure Coverage where
  next : Boundary
  stop : Boundary
  failed : Bool := false
  deriving DecidableEq

namespace Coverage

/-- A coverage of a target that was fed nothing. -/
def start (target : Interval) : Coverage := ⟨target.first, target.past, false⟩

/-- `ordered_keyspace_coverage::append`. -/
def append (c : Coverage) (interval : Interval) : Except Errc Unit × Coverage :=
  if c.failed ∨ interval.first ≠ c.next ∨ c.stop.lt interval.past then
    (.error .invalidArgument, { c with failed := true })
  else (.ok (), { c with next := interval.past })

/-- `ordered_keyspace_coverage::finish`. -/
def finish (c : Coverage) : Except Errc Unit :=
  if c.failed ∨ c.next ≠ c.stop then .error .invalidArgument else .ok ()

/-- Intervals fed one after the other. -/
def feed (c : Coverage) (intervals : List Interval) : Coverage :=
  intervals.foldl (fun c interval => (c.append interval).2) c

/-- A coverage of a target accepts a sequence of intervals. -/
def Accepts (target : Interval) (intervals : List Interval) : Prop :=
  ((start target).feed intervals).finish = .ok ()

end Coverage

/-- The piece of numbers that an interval is. -/
def Interval.piece (i : Interval) : Nat × Nat := (i.first.number, i.past.number)

/-! ## What a coverage accepts -/

variable {c : Coverage} {intervals : List Interval} {target : Interval}

/-- An interval that does not go on where the coverage stands fails it for good. -/
theorem feed_failed (h : c.failed = true) : (c.feed intervals).failed = true := by
  induction intervals generalizing c with
  | nil => exact h
  | cons interval rest ih =>
    refine ih ?_
    change (c.append interval).2.failed = true
    unfold Coverage.append
    rw [if_pos (Or.inl h)]

theorem finish_eq_ok : c.finish = .ok () ↔ c.failed = false ∧ c.next.number = c.stop.number := by
  unfold Coverage.finish
  rw [Boundary.number_inj]
  split
  next h =>
    refine iff_of_false nofun ?_
    rintro ⟨hfailed, hnext⟩
    rcases h with h | h
    · rw [hfailed] at h
      cases h
    · exact h hnext
  next h =>
    refine iff_of_true rfl ⟨?_, ?_⟩
    · exact eq_false_of_ne_true fun hfailed => h (.inl hfailed)
    · exact not_not.mp fun hnext => h (.inr hnext)

/-- Fed to the end without a failure: every interval began where the one before it ended. -/
theorem feed_finish (h : c.failed = false) : (c.feed intervals).finish = .ok ()
    ↔ Tiling.Joined c.next.number c.stop.number (intervals.map Interval.piece) := by
  induction intervals generalizing c with
  | nil =>
    refine finish_eq_ok.trans ?_
    exact and_iff_right h
  | cons interval rest ih =>
    change ((c.append interval).2.feed rest).finish = .ok () ↔ interval.first.number = c.next.number
      ∧ Tiling.Joined interval.past.number c.stop.number (rest.map Interval.piece)
    by_cases hgoes : c.failed ∨ interval.first ≠ c.next ∨ c.stop.lt interval.past
    · have hfailed : (c.append interval).2.failed = true := by
        unfold Coverage.append
        rw [if_pos hgoes]
      refine iff_of_false ?_ ?_
      · intro hfinish
        have hnot := (finish_eq_ok.mp hfinish).1
        rw [feed_failed hfailed] at hnot
        cases hnot
      · rintro ⟨hbegin, hjoined⟩
        rcases hgoes with hgoes | hgoes | hgoes
        · rw [h] at hgoes
          cases hgoes
        · exact hgoes (Boundary.number_inj.mp hbegin)
        · -- what is joined to the stop does not pass it
          have hle := hjoined.le (by
            intro piece hmem
            obtain ⟨other, _, rfl⟩ := List.mem_map.mp hmem
            exact other.first_lt_past)
          have hpast := Boundary.lt_iff.mp hgoes
          omega
    · have happend : (c.append interval).2 = { c with next := interval.past } := by
        unfold Coverage.append
        rw [if_neg hgoes]
      rw [happend, @ih { c with next := interval.past } h]
      have hbegin : interval.first = c.next := not_not.mp fun hne => hgoes (.inr (.inl hne))
      rw [hbegin]
      exact (and_iff_right rfl).symm

theorem accepts_iff : Coverage.Accepts target intervals
    ↔ Tiling.Splits target.first.number target.past.number (intervals.map Interval.piece) := by
  refine (feed_finish rfl).trans (Tiling.joined_iff target.first_lt_past.le ?_)
  intro piece hmem
  obtain ⟨interval, _, rfl⟩ := List.mem_map.mp hmem
  exact interval.first_lt_past

/-! ## In points -/

/-- One interval lies entirely before another. -/
def Before (first second : Interval) : Prop :=
  ∀ p q, first.contains p = true → second.contains q = true → p < q

/-- A number below the end of an interval is a point. -/
theorem point_of_lt {x : Nat} (i : Interval) (h : x < i.past.number) : ∃ point : UInt64, point.toNat = x := by
  have hle := i.end_le
  rw [i.past_number] at h
  refine ⟨UInt64.ofNat x, UInt64.toNat_ofNat_of_lt' ?_⟩
  change x < 18446744073709551616
  omega

theorem before_iff {first second : Interval} : Before first second
    ↔ first.past.number ≤ second.first.number := by
  constructor
  · intro h
    have hfirst := first.first_lt_past
    have hsecond := second.first_lt_past
    obtain ⟨p, hp⟩ := point_of_lt first (Nat.sub_lt (by omega) Nat.one_pos)
    obtain ⟨q, hq⟩ := point_of_lt second hsecond
    have hless := UInt64.lt_iff_toNat_lt.mp (h p q (Interval.contains_iff.mpr ⟨by dsimp only; omega, by
      dsimp only
      omega⟩) (Interval.contains_iff.mpr ⟨by dsimp only; omega, by dsimp only; omega⟩))
    omega
  · intro h p q hp hq
    have hpast := (Interval.contains_iff.mp hp).2
    have hfirst := (Interval.contains_iff.mp hq).1
    dsimp only at hpast hfirst
    exact UInt64.lt_iff_toNat_lt.mpr (by omega)

/-- Each interval before the next is each before all that come after it. -/
theorem pairwise_of_next (h : ∀ i (hi : i + 1 < intervals.length),
      Before (intervals.get ⟨i, by omega⟩) (intervals.get ⟨i + 1, hi⟩)) :
    intervals.Pairwise Before := by
  induction intervals with
  | nil => exact List.Pairwise.nil
  | cons interval rest ih =>
    have hrest := ih fun i hi => h (i + 1) (Nat.succ_lt_succ hi)
    refine List.pairwise_cons.mpr ⟨?_, hrest⟩
    cases rest with
    | nil => exact nofun
    | cons second more =>
      have hsecond : Before interval second := h 0 (by rw [List.length_cons, List.length_cons]; omega)
      intro other hmem
      rcases List.mem_cons.mp hmem with rfl | hmem
      · exact hsecond
      · have hlater := (List.pairwise_cons.mp hrest).1 other hmem
        rw [before_iff] at hsecond hlater ⊢
        have := second.first_lt_past
        omega

/-- **A coverage accepts exactly the sequences that partition its target**: every point of the target is in
    exactly one of the intervals, none holds a point outside, and each lies entirely before the next. -/
theorem coverage_iff_partition (target : Interval) (intervals : List Interval) :
    Coverage.Accepts target intervals
      ↔ (∀ point, target.contains point = true →
          ∃! i : Fin intervals.length, (intervals.get i).contains point = true)
        ∧ (∀ interval ∈ intervals, ∀ point, interval.contains point = true → target.contains point = true)
        ∧ ∀ i (hi : i + 1 < intervals.length),
          Before (intervals.get ⟨i, by omega⟩) (intervals.get ⟨i + 1, hi⟩) := by
  rw [accepts_iff]
  constructor
  · rintro ⟨hcover, hordered⟩
    rw [List.pairwise_map] at hordered
    have hbefore : intervals.Pairwise Before := hordered.imp fun h => before_iff.mpr h
    have hpairs : ∀ i j : Fin intervals.length, i.1 < j.1 →
        Before (intervals.get i) (intervals.get j) :=
      fun i j hlt => List.pairwise_iff_getElem.mp hbefore i.1 j.1 i.2 j.2 hlt
    refine ⟨?_, ?_, fun i hi => hpairs _ _ (Nat.lt_succ_self i)⟩
    · intro point hpoint
      obtain ⟨piece, hmem, hholds⟩ := (hcover point.toNat).mp (Interval.contains_iff.mp hpoint)
      obtain ⟨interval, hinterval, rfl⟩ := List.mem_map.mp hmem
      obtain ⟨i, rfl⟩ := List.get_of_mem hinterval
      have hhere := Interval.contains_iff.mpr hholds
      refine ⟨i, hhere, ?_⟩
      intro j hthere
      -- two intervals that hold one point would have it before itself
      rcases Nat.lt_trichotomy j.1 i.1 with hlt | heq | hgt
      · exact absurd (hpairs j i hlt point point hthere hhere) (UInt64.lt_irrefl _)
      · exact Fin.ext heq
      · exact absurd (hpairs i j hgt point point hhere hthere) (UInt64.lt_irrefl _)
    · intro interval hmem point hpoint
      exact Interval.contains_iff.mpr ((hcover point.toNat).mpr
        ⟨_, List.mem_map_of_mem hmem, Interval.contains_iff.mp hpoint⟩)
  · rintro ⟨hcover, hinside, hnext⟩
    refine ⟨?_, List.pairwise_map.mpr ((pairwise_of_next hnext).imp fun h => before_iff.mp h)⟩
    intro x
    constructor
    · intro hx
      obtain ⟨point, rfl⟩ := point_of_lt target hx.2
      obtain ⟨i, hholds, _⟩ := hcover point (Interval.contains_iff.mpr hx)
      exact ⟨_, List.mem_map_of_mem (List.get_mem intervals i), Interval.contains_iff.mp hholds⟩
    · rintro ⟨piece, hmem, hholds⟩
      obtain ⟨interval, hinterval, rfl⟩ := List.mem_map.mp hmem
      obtain ⟨point, rfl⟩ := point_of_lt interval hholds.2
      exact Interval.contains_iff.mp (hinside interval hinterval point (Interval.contains_iff.mpr hholds))

/-- A coverage of half of the keyspace accepts that half, which leaves a point out. -/
theorem half_covered : Coverage.Accepts ⟨0, 1, by decide, by decide⟩ [⟨0, 1, by decide, by decide⟩]
    ∧ ¬∃ interval ∈ [(⟨0, 1, by decide, by decide⟩ : Interval)],
      interval.contains 9223372036854775808 = true := by
  refine ⟨rfl, ?_⟩
  rintro ⟨interval, hmem, hcontains⟩
  obtain rfl := List.mem_singleton.mp hmem
  revert hcontains
  decide

end KwaqueStorage.Keyspace
