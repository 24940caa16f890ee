import KwaqueStorage.Base.Types
import KwaqueStorage.Lib.Checks

/-!
# Folding rebuilt obligations

A restart rebuilds obligation rows, one for each WAL file and segment that share one, in the order its merge
delivers them. `fold_pinned_obligation` folds them into one pin per segment: every PREPARE the segment has
pinned across the files, at the oldest of them. What comes out is a matter of which rows went in and never
of their order, and `fold_pinned` says which rows can be folded.
-/

namespace KwaqueStorage.Checkpoint

open Lib

variable {σ : Type} [DecidableEq σ]

/-- `recovery_obligation`, as far as its pinned PREPAREs go. -/
structure RecoveryObligation (σ : Type) where
  wal : Nat
  segment : σ
  pinned : UInt32
  firstPinned : Option Cursor
  deriving DecidableEq

/-- `local_pinned_obligation`. -/
structure PinnedObligation (σ : Type) where
  wal : Nat
  segment : σ
  pinned : UInt32
  first : Cursor
  deriving DecidableEq

/-- `local_wal_cursor::compare` of two positions of one owner: of the whole store, they have no order. -/
def compareIn (storeWide : Bool) (position other : Cursor) : Except Errc Bool :=
  if storeWide then .error .invalidArgument else .ok (decide (position < other))

/-- A row that pins something, into the pin of its segment. -/
def foldInto (storeWide : Bool) (row : RecoveryObligation σ) (first : Cursor) (found : PinnedObligation σ) :
    Except Errc (PinnedObligation σ) := do
  require (row.pinned ≤ 4294967295 - found.pinned) .outOfRange
  let less ← (compareIn storeWide first found.first).mapError fun _ => .wrongContext
  let found := { found with pinned := found.pinned + row.pinned }
  pure (if less then { found with wal := row.wal, first } else found)

/-- The pin of a row's segment, found and folded into, or made behind the others. -/
def foldAmong (storeWide : Bool) (row : RecoveryObligation σ) (first : Cursor) :
    List (PinnedObligation σ) → Except Errc (List (PinnedObligation σ))
  | [] => .ok [⟨row.wal, row.segment, row.pinned, first⟩]
  | found :: rest =>
    if found.segment = row.segment then do
      let folded ← foldInto storeWide row first found
      pure (folded :: rest)
    else do
      let rest ← foldAmong storeWide row first rest
      pure (found :: rest)

/-- `fold_pinned_obligation`. -/
def foldPinnedObligation (storeWide : Bool) (pins : List (PinnedObligation σ))
    (row : RecoveryObligation σ) : Except Errc (List (PinnedObligation σ)) :=
  if row.pinned = 0 then .ok pins
  else do
    let first ← expect row.firstPinned .invalidArgument
    require (first.incarnation = row.wal) .invalidArgument
    foldAmong storeWide row first pins

/-- The rows of a restart, one after another. -/
def foldAll (storeWide : Bool) (rows : List (RecoveryObligation σ)) :
    Except Errc (List (PinnedObligation σ)) := rows.foldlM (foldPinnedObligation storeWide) []

/-! ## What rows pin -/

/-- A row pins something of a segment. -/
def RecoveryObligation.Pins (row : RecoveryObligation σ) (segment : σ) : Prop :=
  row.segment = segment ∧ row.pinned ≠ 0

instance (row : RecoveryObligation σ) (segment : σ) : Decidable (row.Pins segment) :=
  inferInstanceAs (Decidable (_ ∧ _))

/-- A row that pins something says where, in its own file. -/
def RecoveryObligation.Placed (row : RecoveryObligation σ) : Prop :=
  row.pinned ≠ 0 → ∃ first, row.firstPinned = some first ∧ first.incarnation = row.wal

/-- The PREPAREs a segment has pinned in all rows. -/
def pinnedIn (rows : List (RecoveryObligation σ)) (segment : σ) : Nat :=
  ((rows.filter fun row => row.segment = segment).map fun row => row.pinned.toNat).sum

/-- The rows that can be folded: each is placed, the counts of a segment fit their type, and where positions
    have no order no two have to be compared. -/
structure Foldable (storeWide : Bool) (rows : List (RecoveryObligation σ)) : Prop where
  placed : ∀ row ∈ rows, row.Placed
  fits : ∀ segment, pinnedIn rows segment ≤ 4294967295
  ordered : storeWide = true → ∀ segment, rows.countP (fun row => row.Pins segment) ≤ 1

/-- **What rows are folded to**: one pin for each segment they pin something of, with all of its count, at
    the least of its positions and in that position's file. -/
structure Folded (pins : List (PinnedObligation σ)) (rows : List (RecoveryObligation σ)) : Prop where
  distinct : (pins.map PinnedObligation.segment).Nodup
  segments : ∀ segment, (∃ pin ∈ pins, pin.segment = segment) ↔ ∃ row ∈ rows, row.Pins segment
  counts : ∀ pin ∈ pins, pin.pinned.toNat = pinnedIn rows pin.segment
  taken : ∀ pin ∈ pins, ∃ row ∈ rows, row.Pins pin.segment ∧ row.firstPinned = some pin.first
    ∧ row.wal = pin.wal
  least : ∀ pin ∈ pins, ∀ row ∈ rows, row.Pins pin.segment → ∀ first ∈ row.firstPinned, pin.first ≤ first

variable {storeWide : Bool} {rows : List (RecoveryObligation σ)} {row : RecoveryObligation σ}
  {pins : List (PinnedObligation σ)} {first : Cursor}

theorem pinnedIn_snoc (segment : σ) : pinnedIn (rows ++ [row]) segment
    = pinnedIn rows segment + if row.segment = segment then row.pinned.toNat else 0 := by
  unfold pinnedIn
  rw [List.filter_append, List.map_append, List.sum_append]
  by_cases h : row.segment = segment
  · rw [List.filter_cons_of_pos (by simpa using h), if_pos h]
    simp
  · rw [List.filter_cons_of_neg (by simpa using h), if_neg h]
    simp

theorem pinnedIn_eq_zero {segment : σ} (h : ∀ row ∈ rows, ¬row.Pins segment) : pinnedIn rows segment = 0 := by
  unfold pinnedIn
  refine List.sum_eq_zero fun count hcount => ?_
  obtain ⟨row, hrow, rfl⟩ := List.mem_map.mp hcount
  obtain ⟨hmem, hsegment⟩ := List.mem_filter.mp hrow
  by_contra hne
  refine h row hmem ⟨of_decide_eq_true hsegment, fun hidle => hne ?_⟩
  rw [hidle]
  rfl

omit [DecidableEq σ] in
theorem exists_pins_snoc {segment : σ} : (∃ other ∈ rows ++ [row], other.Pins segment)
    ↔ (∃ other ∈ rows, other.Pins segment) ∨ row.Pins segment := by
  simp only [List.mem_append, List.mem_singleton, or_and_right, exists_or, exists_eq_left]

/-! ## One row -/

omit [DecidableEq σ] in
theorem foldInto_eq_ok {found folded : PinnedObligation σ} : foldInto storeWide row first found = .ok folded
    ↔ found.pinned.toNat + row.pinned.toNat ≤ 4294967295 ∧ storeWide = false
      ∧ folded = if first < found.first
          then ⟨row.wal, found.segment, found.pinned + row.pinned, first⟩
          else ⟨found.wal, found.segment, found.pinned + row.pinned, found.first⟩ := by
  have hle : row.pinned ≤ 4294967295 - found.pinned
      ↔ found.pinned.toNat + row.pinned.toNat ≤ 4294967295 := by
    have hmost : (4294967295 : UInt32).toNat = 4294967295 := rfl
    have hfound := found.pinned.toNat_lt
    rw [UInt32.le_iff_toNat_le,
      UInt32.toNat_sub_of_le _ _ (UInt32.le_iff_toNat_le.mpr (by omega)), hmost]
    omega
  unfold foldInto compareIn
  simp only [bind_eq_ok, require_eq_ok, exists_const, mapError_eq_ok, pure_eq_ok, hle]
  refine and_congr_right fun _ => ?_
  cases storeWide with
  | true => exact iff_of_false (fun h => nomatch h.choose_spec.1) fun h => nomatch h.1
  | false =>
    simp only [Bool.false_eq_true, if_false, Except.ok.injEq, exists_eq_left', decide_eq_true_eq, true_and]
    exact eq_comm

theorem foldAmong_absent (h : ∀ pin ∈ pins, pin.segment ≠ row.segment) :
    foldAmong storeWide row first pins = .ok (pins ++ [⟨row.wal, row.segment, row.pinned, first⟩]) := by
  induction pins with
  | nil => rfl
  | cons pin rest ih =>
    rw [foldAmong, if_neg (h pin List.mem_cons_self), ih fun other hmem => h other (List.mem_cons_of_mem _ hmem)]
    rfl

theorem foldAmong_present {before after : List (PinnedObligation σ)} {found : PinnedObligation σ}
    (hbefore : ∀ pin ∈ before, pin.segment ≠ row.segment) (hfound : found.segment = row.segment) :
    foldAmong storeWide row first (before ++ found :: after) = .ok pins
      ↔ ∃ folded, foldInto storeWide row first found = .ok folded ∧ pins = before ++ folded :: after := by
  induction before generalizing pins with
  | nil =>
    rw [List.nil_append, foldAmong, if_pos hfound]
    simp only [bind_eq_ok, pure_eq_ok, List.nil_append]
    exact exists_congr fun _ => and_congr_right fun _ => eq_comm
  | cons pin rest ih =>
    rw [List.cons_append, foldAmong, if_neg (hbefore pin List.mem_cons_self)]
    simp only [bind_eq_ok, pure_eq_ok, ih fun other hmem => hbefore other (List.mem_cons_of_mem _ hmem)]
    constructor
    · rintro ⟨_, ⟨folded, hfolded, rfl⟩, rfl⟩
      exact ⟨folded, hfolded, rfl⟩
    · rintro ⟨folded, hfolded, rfl⟩
      exact ⟨_, ⟨folded, hfolded, rfl⟩, rfl⟩

/-! ## Rows one after another -/

/-- A row that pins nothing changes nothing. -/
theorem Folded.snoc_idle (h : Folded pins rows) (hidle : row.pinned = 0) : Folded pins (rows ++ [row]) := by
  have hnot : ∀ segment, ¬row.Pins segment := fun _ hpins => hpins.2 hidle
  refine ⟨h.distinct, fun segment => ?_, fun pin hpin => ?_, fun pin hpin => ?_, fun pin hpin => ?_⟩
  · rw [exists_pins_snoc, h.segments]
    exact ⟨.inl, fun hor => hor.resolve_right (hnot segment)⟩
  · rw [pinnedIn_snoc, hidle, h.counts pin hpin]
    simp
  · obtain ⟨other, hmem, hrest⟩ := h.taken pin hpin
    exact ⟨other, List.mem_append_left _ hmem, hrest⟩
  · intro other hmem hpins
    rcases List.mem_append.mp hmem with hmem | hmem
    · exact h.least pin hpin other hmem hpins
    · obtain rfl := List.mem_singleton.mp hmem
      exact absurd hpins (hnot _)

/-- A row that pins something changes the pin of its segment alone. -/
theorem Folded.snoc {pins' : List (PinnedObligation σ)} {own : PinnedObligation σ} (h : Folded pins rows)
    (hpinned : row.pinned ≠ 0) (hdistinct : (pins'.map PinnedObligation.segment).Nodup)
    (hothers : ∀ pin, pin.segment ≠ row.segment → (pin ∈ pins' ↔ pin ∈ pins))
    (hown : own ∈ pins') (hsegment : own.segment = row.segment)
    (hcount : own.pinned.toNat = pinnedIn rows row.segment + row.pinned.toNat)
    (htaken : ∃ other ∈ rows ++ [row], other.Pins row.segment ∧ other.firstPinned = some own.first
      ∧ other.wal = own.wal)
    (hleast : ∀ other ∈ rows ++ [row], other.Pins row.segment → ∀ first ∈ other.firstPinned,
      own.first ≤ first) : Folded pins' (rows ++ [row]) := by
  have hcases : ∀ pin ∈ pins', pin = own ∨ (pin.segment ≠ row.segment ∧ pin ∈ pins) := by
    intro pin hpin
    by_cases heq : pin.segment = row.segment
    · exact .inl (List.inj_on_of_nodup_map hdistinct hpin hown (heq.trans hsegment.symm))
    · exact .inr ⟨heq, (hothers pin heq).mp hpin⟩
  have hnot : ∀ {segment}, segment ≠ row.segment → ¬row.Pins segment := fun hne hpins => hne hpins.1.symm
  refine ⟨hdistinct, fun segment => ?_, fun pin hpin => ?_, fun pin hpin => ?_, fun pin hpin => ?_⟩
  · rw [exists_pins_snoc, ← h.segments]
    by_cases heq : segment = row.segment
    · exact iff_of_true ⟨own, hown, hsegment.trans heq.symm⟩ (.inr ⟨heq.symm, hpinned⟩)
    · constructor
      · rintro ⟨pin, hpin, rfl⟩
        exact .inl ⟨pin, (hothers pin heq).mp hpin, rfl⟩
      · rintro (⟨pin, hpin, rfl⟩ | hpins)
        · exact ⟨pin, (hothers pin heq).mpr hpin, rfl⟩
        · exact absurd hpins (hnot heq)
  all_goals rcases hcases pin hpin with rfl | ⟨hne, hold⟩
  · rw [pinnedIn_snoc, hsegment, if_pos rfl]
    exact hcount
  · rw [pinnedIn_snoc, if_neg hne.symm]
    exact h.counts pin hold
  · rw [hsegment]
    exact htaken
  · obtain ⟨other, hmem, hrest⟩ := h.taken pin hold
    exact ⟨other, List.mem_append_left _ hmem, hrest⟩
  · rw [hsegment]
    exact hleast
  · intro other hmem hpins
    rcases List.mem_append.mp hmem with hmem | hmem
    · exact h.least pin hold other hmem hpins
    · obtain rfl := List.mem_singleton.mp hmem
      exact absurd hpins (hnot hne)

/-- A segment not pinned before: it has a pin of its own from now on. -/
theorem Folded.snoc_absent (h : Folded pins rows) (hpinned : row.pinned ≠ 0)
    (hfirst : row.firstPinned = some first) (habsent : ∀ pin ∈ pins, pin.segment ≠ row.segment) :
    Folded (pins ++ [⟨row.wal, row.segment, row.pinned, first⟩]) (rows ++ [row]) := by
  have hnone : ∀ other ∈ rows, ¬other.Pins row.segment := by
    intro other hmem hpins
    obtain ⟨pin, hpin, heq⟩ := (h.segments row.segment).mpr ⟨other, hmem, hpins⟩
    exact habsent pin hpin heq
  refine h.snoc hpinned ?_ ?_ (List.mem_append_right _ List.mem_cons_self) rfl ?_ ?_ ?_
  · rw [List.map_append, List.nodup_append]
    refine ⟨h.distinct, List.nodup_singleton _, ?_⟩
    rintro _ hold _ hnew rfl
    obtain ⟨pin, hpin, heq⟩ := List.mem_map.mp hold
    exact habsent pin hpin (heq.trans (List.mem_singleton.mp hnew))
  · intro pin hne
    rw [List.mem_append, List.mem_singleton]
    refine or_iff_left ?_
    rintro rfl
    exact hne rfl
  · rw [pinnedIn_eq_zero hnone, Nat.zero_add]
  · exact ⟨row, List.mem_append_right _ List.mem_cons_self, ⟨rfl, hpinned⟩, hfirst, rfl⟩
  · intro other hmem hpins position hposition
    rcases List.mem_append.mp hmem with hmem | hmem
    · exact absurd hpins (hnone other hmem)
    · obtain rfl := List.mem_singleton.mp hmem
      exact le_of_eq (Option.some.inj (hfirst.symm.trans hposition))

/-- A segment pinned before: its pin counts more, and moves to the row's position if that is less. -/
theorem Folded.snoc_present {before after : List (PinnedObligation σ)} {found folded : PinnedObligation σ}
    (h : Folded (before ++ found :: after) rows) (hpinned : row.pinned ≠ 0)
    (hfirst : row.firstPinned = some first) (hfound : found.segment = row.segment)
    (hfolded : foldInto storeWide row first found = .ok folded) :
    Folded (before ++ folded :: after) (rows ++ [row]) := by
  obtain ⟨hfits, _, heq⟩ := foldInto_eq_ok.mp hfolded
  have hmem : found ∈ before ++ found :: after := List.mem_append_right _ List.mem_cons_self
  have hsegment : folded.segment = found.segment := by
    rw [heq]
    split <;> rfl
  have hcount : folded.pinned = found.pinned + row.pinned := by
    rw [heq]
    split <;> rfl
  have htaken := h.taken found hmem
  have hleast := h.least found hmem
  rw [hfound] at htaken hleast
  refine @Folded.snoc _ _ _ _ _ _ folded h hpinned ?_ ?_ (List.mem_append_right _ List.mem_cons_self)
    (hsegment.trans hfound) ?_ ?_ ?_
  · have hdistinct := h.distinct
    rw [List.map_append, List.map_cons] at hdistinct ⊢
    rwa [hsegment]
  · intro pin hne
    simp only [List.mem_append, List.mem_cons]
    have hnot : pin ≠ folded ∧ pin ≠ found :=
      ⟨fun h => hne (h ▸ hsegment.trans hfound), fun h => hne (h ▸ hfound)⟩
    rw [or_iff_right hnot.1, or_iff_right hnot.2]
  · rw [hcount, UInt32.toNat_add, Nat.mod_eq_of_lt (by omega), ← hfound, h.counts found hmem]
  · rw [heq]
    split
    next => exact ⟨row, List.mem_append_right _ List.mem_cons_self, ⟨rfl, hpinned⟩, hfirst, rfl⟩
    next =>
      obtain ⟨other, hother, hrest⟩ := htaken
      exact ⟨other, List.mem_append_left _ hother, hrest⟩
  · have hmin : folded.first ≤ first ∧ folded.first ≤ found.first := by
      rw [heq]
      split
      next hlt => exact ⟨le_rfl, le_of_lt hlt⟩
      next hge => exact ⟨not_lt.mp hge, le_rfl⟩
    intro other hother hpins position hposition
    rcases List.mem_append.mp hother with hother | hother
    · exact hmin.2.trans (hleast other hother hpins position hposition)
    · obtain rfl := List.mem_singleton.mp hother
      exact hmin.1.trans (le_of_eq (Option.some.inj (hfirst.symm.trans hposition)))

/-- Rows that can be folded can be folded one short. -/
theorem Foldable.init (h : Foldable storeWide (rows ++ [row])) : Foldable storeWide rows := by
  refine ⟨fun other hmem => h.placed other (List.mem_append_left _ hmem), fun segment => ?_, fun hwide segment => ?_⟩
  · have hfits := h.fits segment
    rw [pinnedIn_snoc] at hfits
    omega
  · have hone := h.ordered hwide segment
    rw [List.countP_append] at hone
    omega

/-- Whether one more row can be folded, once those before it were. -/
theorem foldable_snoc (h : Folded pins rows) : Foldable storeWide (rows ++ [row])
    ↔ Foldable storeWide rows ∧ row.Placed
      ∧ ∀ found ∈ pins, row.Pins found.segment →
          found.pinned.toNat + row.pinned.toNat ≤ 4294967295 ∧ storeWide = false := by
  constructor
  · intro hall
    refine ⟨hall.init, hall.placed row (List.mem_append_right _ List.mem_cons_self), ?_⟩
    intro found hfound hpins
    have hfits := hall.fits found.segment
    rw [pinnedIn_snoc, if_pos hpins.1, ← h.counts found hfound] at hfits
    refine ⟨hfits, Bool.eq_false_iff.mpr fun hwide => ?_⟩
    -- the segment's pin came from a row before, so this one would have to be compared with it
    have hone := hall.ordered hwide found.segment
    obtain ⟨other, hother, hrest⟩ := (h.segments _).mp ⟨found, hfound, rfl⟩
    have hbefore : 0 < rows.countP fun row => row.Pins found.segment :=
      List.countP_pos_iff.mpr ⟨other, hother, decide_eq_true hrest⟩
    rw [List.countP_append, List.countP_singleton, if_pos (decide_eq_true hpins)] at hone
    omega
  · rintro ⟨hall, hplaced, hfound⟩
    refine ⟨?_, ?_, ?_⟩
    · intro other hmem
      rcases List.mem_append.mp hmem with hmem | hmem
      · exact hall.placed other hmem
      · obtain rfl := List.mem_singleton.mp hmem
        exact hplaced
    · intro segment
      have hfits := hall.fits segment
      have hlt := row.pinned.toNat_lt
      rw [pinnedIn_snoc]
      split
      next heq =>
        by_cases hidle : row.pinned = 0
        · rw [hidle]
          exact hfits
        · by_cases hpin : ∃ pin ∈ pins, pin.segment = segment
          · obtain ⟨pin, hpin, rfl⟩ := hpin
            rw [← h.counts pin hpin]
            exact (hfound pin hpin ⟨heq, hidle⟩).1
          · have hzero : pinnedIn rows segment = 0 := by
              refine pinnedIn_eq_zero fun other hmem hpins => hpin ?_
              exact (h.segments _).mpr ⟨other, hmem, hpins⟩
            omega
      next => exact hfits
    · intro hwide segment
      have hone := hall.ordered hwide segment
      rw [List.countP_append, List.countP_singleton]
      split
      next hpins =>
        have hpins : row.Pins segment := of_decide_eq_true hpins
        have hnone : rows.countP (fun row => row.Pins segment) = 0 := by
          rw [List.countP_eq_zero]
          intro other hmem hother
          obtain ⟨pin, hpin, rfl⟩ := (h.segments segment).mpr ⟨other, hmem, of_decide_eq_true hother⟩
          exact nomatch hwide.symm.trans (hfound pin hpin hpins).2
        omega
      next => exact hone

/-- **One row behind others**: when it is folded, and that it is. -/
theorem Folded.step (h : Folded pins rows) :
    ((∃ pins', foldPinnedObligation storeWide pins row = .ok pins')
      ↔ row.Placed ∧ ∀ found ∈ pins, row.Pins found.segment →
          found.pinned.toNat + row.pinned.toNat ≤ 4294967295 ∧ storeWide = false)
    ∧ ∀ pins', foldPinnedObligation storeWide pins row = .ok pins' → Folded pins' (rows ++ [row]) := by
  unfold foldPinnedObligation
  split
  next hidle =>
    refine ⟨iff_of_true ⟨pins, rfl⟩ ⟨fun hne => absurd hidle hne, fun _ _ hpins => absurd hidle hpins.2⟩, ?_⟩
    rintro _ ⟨⟩
    exact h.snoc_idle hidle
  next hpinned =>
    simp only [bind_eq_ok, expect_eq_ok, require_eq_ok, exists_const]
    by_cases hpresent : ∃ found ∈ pins, found.segment = row.segment
    · obtain ⟨found, hfound, hsegment⟩ := hpresent
      obtain ⟨before, after, rfl⟩ := List.append_of_mem hfound
      have hdistinct := h.distinct
      rw [List.map_append, List.map_cons] at hdistinct
      have hbefore : ∀ pin ∈ before, pin.segment ≠ row.segment := by
        intro pin hpin heq
        refine (List.nodup_append.mp hdistinct).2.2 _ (List.mem_map_of_mem hpin) _ List.mem_cons_self ?_
        exact heq.trans hsegment.symm
      simp only [foldAmong_present hbefore hsegment]
      refine ⟨?_, ?_⟩
      · constructor
        · rintro ⟨_, first, hfirst, hown, folded, hfolded, _⟩
          refine ⟨fun _ => ⟨first, hfirst, hown⟩, fun pin hpin hpins => ?_⟩
          obtain rfl : pin = found := List.inj_on_of_nodup_map h.distinct hpin hfound
            (hpins.1.symm.trans hsegment.symm)
          obtain ⟨hfits, hshard, _⟩ := foldInto_eq_ok.mp hfolded
          exact ⟨hfits, hshard⟩
        · rintro ⟨hplaced, hall⟩
          obtain ⟨first, hfirst, hown⟩ := hplaced hpinned
          obtain ⟨hfits, hshard⟩ := hall found hfound ⟨hsegment.symm, hpinned⟩
          exact ⟨_, first, hfirst, hown, _, foldInto_eq_ok.mpr ⟨hfits, hshard, rfl⟩, rfl⟩
      · rintro _ ⟨first, hfirst, _, folded, hfolded, rfl⟩
        exact h.snoc_present hpinned hfirst hsegment hfolded
    · have habsent : ∀ pin ∈ pins, pin.segment ≠ row.segment := fun pin hpin heq => hpresent ⟨pin, hpin, heq⟩
      simp only [foldAmong_absent habsent]
      refine ⟨?_, ?_⟩
      · constructor
        · rintro ⟨_, first, hfirst, hown, _⟩
          exact ⟨fun _ => ⟨first, hfirst, hown⟩, fun pin hpin hpins => absurd hpins.1.symm (habsent pin hpin)⟩
        · rintro ⟨hplaced, _⟩
          obtain ⟨first, hfirst, hown⟩ := hplaced hpinned
          exact ⟨_, first, hfirst, hown, rfl⟩
      · rintro _ ⟨first, hfirst, _, heq⟩
        cases heq
        exact h.snoc_absent hpinned hfirst habsent

/-- The rows of a restart, in the order they are delivered. -/
theorem foldAll_spec : ((∃ pins, foldAll storeWide rows = .ok pins) ↔ Foldable storeWide rows)
    ∧ ∀ pins, foldAll storeWide rows = .ok pins → Folded pins rows := by
  induction rows using List.reverseRecOn with
  | nil =>
    refine ⟨iff_of_true ⟨[], rfl⟩ ⟨nofun, fun _ => Nat.zero_le _, fun _ _ => Nat.zero_le _⟩, ?_⟩
    rintro _ ⟨⟩
    exact ⟨List.nodup_nil, fun _ => iff_of_false (by simp) (by simp), nofun, nofun, nofun⟩
  | append_singleton before row ih =>
    have hsnoc : ∀ pins, foldAll storeWide (before ++ [row]) = .ok pins
        ↔ ∃ earlier, foldAll storeWide before = .ok earlier
          ∧ foldPinnedObligation storeWide earlier row = .ok pins := by
      intro pins
      unfold foldAll
      rw [List.foldlM_append, bind_eq_ok]
      refine exists_congr fun earlier => and_congr_right fun _ => ?_
      rw [List.foldlM_cons, bind_eq_ok]
      simp only [List.foldlM_nil, pure_eq_ok, exists_eq_right]
    simp only [hsnoc]
    refine ⟨?_, ?_⟩
    · constructor
      · rintro ⟨pins, earlier, hearlier, hpins⟩
        have hfolded := ih.2 earlier hearlier
        exact (foldable_snoc hfolded).mpr ⟨ih.1.mp ⟨earlier, hearlier⟩, hfolded.step.1.mp ⟨pins, hpins⟩⟩
      · intro hall
        obtain ⟨earlier, hearlier⟩ := ih.1.mpr hall.init
        have hfolded := ih.2 earlier hearlier
        obtain ⟨pins, hpins⟩ := hfolded.step.1.mpr ((foldable_snoc hfolded).mp hall).2
        exact ⟨pins, earlier, hearlier, hpins⟩
    · rintro pins ⟨earlier, hearlier, hpins⟩
      exact (ih.2 earlier hearlier).step.2 pins hpins

/-! ## In any order -/

section Order

variable {order : List (RecoveryObligation σ)}

theorem pinnedIn_perm (h : order.Perm rows) (segment : σ) : pinnedIn order segment = pinnedIn rows segment :=
  ((h.filter _).map _).sum_eq

theorem Foldable.perm (h : order.Perm rows) (hall : Foldable storeWide order) : Foldable storeWide rows := by
  refine ⟨fun row hrow => hall.placed row (h.mem_iff.mpr hrow), fun segment => ?_, fun hwide segment => ?_⟩
  · rw [← pinnedIn_perm h]
    exact hall.fits segment
  · rw [← h.countP_eq]
    exact hall.ordered hwide segment

theorem Folded.perm (h : order.Perm rows) (hall : Folded pins order) : Folded pins rows := by
  obtain ⟨hdistinct, hsegments, hcounts, htaken, hleast⟩ := hall
  simp only [h.mem_iff, pinnedIn_perm h] at hsegments hcounts htaken hleast
  exact ⟨hdistinct, hsegments, hcounts, htaken, hleast⟩

end Order

/-- **Folding rebuilt obligations.** In whatever order rows are delivered, they are folded exactly when each
    that pins something says where in its own file, the counts of every segment fit and, for positions that
    have no order, no two have to be compared; and then there is one pin for each segment they pin something
    of, with the sum of its counts, at the least of its positions and in that position's file. -/
theorem fold_pinned (storeWide : Bool) (rows order : List (RecoveryObligation σ)) (horder : order.Perm rows) :
    ((∃ pins, foldAll storeWide order = .ok pins) ↔ Foldable storeWide rows)
    ∧ ∀ pins, foldAll storeWide order = .ok pins → Folded pins rows := by
  refine ⟨foldAll_spec.1.trans ⟨fun h => h.perm horder, fun h => h.perm horder.symm⟩, ?_⟩
  exact fun pins hpins => (foldAll_spec.2 pins hpins).perm horder

/-- Two rows of a segment, in either order. -/
theorem fold_pinned_two_files :
    let newer : RecoveryObligation Nat := ⟨2, 7, 1, some ⟨2, 4096⟩⟩
    let older : RecoveryObligation Nat := ⟨1, 7, 2, some ⟨1, 8192⟩⟩
    foldAll false [newer, older] = .ok [⟨1, 7, 3, ⟨1, 8192⟩⟩] ∧ Folded [⟨1, 7, 3, ⟨1, 8192⟩⟩] [older, newer] := by
  intro newer older
  exact ⟨by decide, (fold_pinned false [older, newer] [newer, older] (.swap _ _ _)).2 _ (by decide)⟩

/-- A row that pins something and does not say where is refused, and so are two rows of a segment that are to
    be compared under an owner of the whole store, however small their counts. -/
theorem fold_pinned_refused :
    foldAll false [(⟨1, 7, 1, none⟩ : RecoveryObligation Nat)] = .error .invalidArgument
    ∧ foldAll true [(⟨2, 7, 1, some ⟨2, 4096⟩⟩ : RecoveryObligation Nat), ⟨1, 7, 2, some ⟨1, 8192⟩⟩]
      = .error .wrongContext := by decide

end KwaqueStorage.Checkpoint
