import KwaqueStorage.Records.Decode

/-!
# Differences of times

A record keeps its time as a signed difference from its batch's. Both are 64-bit numbers, so the difference
need not be one, and neither need the sum: the source computes on coordinates that order the signed times as
unsigned numbers, and checks before each operation that could leave its range.

An operation that would leave the range of its type is an `Overflow` here, of a signed operation and of an
unsigned sum or difference alike. The one operation that is meant modulo its range is the magnitude of a
negative difference, `0 - delta` over unsigned numbers.
-/

namespace KwaqueStorage.Records

/-- An operation whose result its type cannot hold. -/
inductive Overflow
  | overflow
  deriving DecidableEq

/-- `a - b` of unsigned numbers. -/
def subExact (a b : UInt64) : Except Overflow UInt64 := if b ≤ a then .ok (a - b) else .error .overflow

/-- `a + b` of unsigned numbers. -/
def addExact (a b : UInt64) : Except Overflow UInt64 :=
  if a.toNat + b.toNat < 2 ^ 64 then .ok (a + b) else .error .overflow

/-- A cast of an unsigned number to a signed one. -/
def castExact (a : UInt64) : Except Overflow Int64 :=
  if a.toNat < 2 ^ 63 then .ok (Int64.ofInt a.toNat) else .error .overflow

/-- `-a` of a signed number. -/
def negExact (a : Int64) : Except Overflow Int64 :=
  if a = Int64.minValue then .error .overflow else .ok (-a)

/-- `sign_bit`. -/
def signBit : UInt64 := 9223372036854775808

/-- `ordered_rep`: signed times in their order, as unsigned numbers. -/
def orderedRep (value : Int64) : UInt64 := value.toUInt64 ^^^ signBit

/-- `signed_rep`. -/
def signedRep (value : UInt64) : Int64 := (value ^^^ signBit).toInt64

/-- `checked_timestamp_delta`. -/
def checkedTimestampDelta (base value : Int64) : Except Overflow (Option Int64) :=
  let baseOrdered := orderedRep base
  let valueOrdered := orderedRep value
  if baseOrdered ≤ valueOrdered then do
    let magnitude ← subExact valueOrdered baseOrdered
    if 9223372036854775807 < magnitude then pure none
    else do
      let delta ← castExact magnitude
      pure (some delta)
  else do
    let magnitude ← subExact baseOrdered valueOrdered
    if signBit < magnitude then pure none
    else if magnitude = signBit then pure (some Int64.minValue)
    else do
      let positive ← castExact magnitude
      let delta ← negExact positive
      pure (some delta)

/-- `wall_time::checked_add`. -/
def checkedAddTime (time : Int64) (duration : UInt64) : Except Overflow (Option Int64) := do
  let room ← subExact 18446744073709551615 (orderedRep time)
  if room < duration then pure none
  else do
    let sum ← addExact (orderedRep time) duration
    pure (some (signedRep sum))

/-- `wall_time::checked_sub`. -/
def checkedSubTime (time : Int64) (duration : UInt64) : Except Overflow (Option Int64) :=
  if orderedRep time < duration then .ok none
  else do
    let difference ← subExact (orderedRep time) duration
    pure (some (signedRep difference))

/-- `checked_timestamp_from_delta`. -/
def checkedTimestampFromDelta (base delta : Int64) : Except Overflow (Option Int64) :=
  if 0 ≤ delta then checkedAddTime base delta.toUInt64
  else checkedSubTime base (0 - delta.toUInt64)

/-! ## The coordinates -/

/-- The highest bit of a number, flipped. -/
theorem xor_highest {n a : Nat} (h : a < 2 ^ (n + 1)) :
    a ^^^ 2 ^ n = if a < 2 ^ n then a + 2 ^ n else a - 2 ^ n := by
  have hmod : (a ^^^ 2 ^ n) % 2 ^ n = a % 2 ^ n := by
    rw [Nat.xor_mod_two_pow, Nat.mod_self, Nat.xor_zero]
  have hdiv : (a ^^^ 2 ^ n) / 2 ^ n = a / 2 ^ n ^^^ 1 := by
    rw [Nat.xor_div_two_pow, Nat.div_self (Nat.two_pow_pos n)]
  have hsplit := Nat.div_add_mod (a ^^^ 2 ^ n) (2 ^ n)
  rw [hmod, hdiv] at hsplit
  split
  next hlt =>
    rw [Nat.div_eq_of_lt hlt, Nat.mod_eq_of_lt hlt, Nat.zero_xor] at hsplit
    omega
  next hge =>
    have hone : a / 2 ^ n = 1 := by
      refine Nat.div_eq_of_lt_le ?_ ?_ <;> omega
    have hrest := Nat.div_add_mod a (2 ^ n)
    rw [hone, Nat.xor_self] at hsplit
    rw [hone] at hrest
    omega

/-- A signed number, by the bits it is made of. -/
theorem toInt_eq_toUInt64 (value : Int64) : value.toInt
    = if value.toUInt64.toNat < 2 ^ 63 then (value.toUInt64.toNat : Int)
      else value.toUInt64.toNat - 2 ^ 64 := by
  have hint : value.toInt = value.toBitVec.toInt := rfl
  have hnat : value.toUInt64.toNat = value.toBitVec.toNat := rfl
  rw [hint, hnat, BitVec.toInt_eq_toNat_cond]
  split <;> split <;> omega

theorem orderedRep_toNat (value : Int64) : ((orderedRep value).toNat : Int) = value.toInt + 2 ^ 63 := by
  have hxor : (orderedRep value).toNat = value.toUInt64.toNat ^^^ 2 ^ 63 := by
    unfold orderedRep
    rw [UInt64.toNat_xor]
    rfl
  rw [hxor, xor_highest value.toUInt64.toNat_lt, toInt_eq_toUInt64]
  split <;> omega

theorem orderedRep_signedRep (value : UInt64) : orderedRep (signedRep value) = value := by
  unfold signedRep orderedRep
  show (value ^^^ signBit) ^^^ signBit = value
  rw [UInt64.xor_assoc, UInt64.xor_self, UInt64.xor_zero]

theorem signedRep_toInt (value : UInt64) : (signedRep value).toInt = (value.toNat : Int) - 2 ^ 63 := by
  have h := orderedRep_toNat (signedRep value)
  rw [orderedRep_signedRep] at h
  omega

/-- **The magnitude of a negative difference**, also of the least, by wrapping around. -/
theorem zero_sub_toNat {delta : Int64} (h : delta.toInt < 0) :
    ((0 - delta.toUInt64).toNat : Int) = -delta.toInt := by
  have hlt := delta.toUInt64.toNat_lt
  have hzero : (0 : UInt64).toNat = 0 := rfl
  rw [toInt_eq_toUInt64] at h ⊢
  rw [UInt64.toNat_sub, hzero]
  split at h
  next => omega
  next hge =>
    rw [if_neg hge]
    omega

/-! ## The operations stay in range -/

section Exact

variable {a b : UInt64}

theorem subExact_ok (h : b.toNat ≤ a.toNat) :
    ∃ c, subExact a b = .ok c ∧ c.toNat = a.toNat - b.toNat := by
  have hle : b ≤ a := UInt64.le_iff_toNat_le.mpr h
  unfold subExact
  exact ⟨_, if_pos hle, UInt64.toNat_sub_of_le _ _ hle⟩

theorem addExact_ok (h : a.toNat + b.toNat < 2 ^ 64) :
    ∃ c, addExact a b = .ok c ∧ c.toNat = a.toNat + b.toNat := by
  unfold addExact
  refine ⟨_, if_pos h, ?_⟩
  rw [UInt64.toNat_add, Nat.mod_eq_of_lt h]

theorem castExact_ok (h : a.toNat < 2 ^ 63) : ∃ c, castExact a = .ok c ∧ c.toInt = a.toNat := by
  unfold castExact
  exact ⟨_, if_pos h, Int64.toInt_ofInt_of_le (by omega) (by omega)⟩

theorem negExact_ok {a : Int64} (h : 0 ≤ a.toInt) : ∃ c, negExact a = .ok c ∧ c.toInt = -a.toInt := by
  have hne : a ≠ Int64.minValue := by
    rintro rfl
    exact absurd h (by decide)
  have hhigh := a.toInt_lt
  unfold negExact
  refine ⟨_, if_neg hne, ?_⟩
  rw [Int64.toInt_neg]
  exact Int.bmod_eq_of_le (by omega) (by omega)

end Exact

/-! ## Differences and sums -/

/-- **A difference** is produced exactly when it is a signed 64-bit number, and is that number. -/
theorem checkedTimestampDelta_spec (base value : Int64) :
    ∃ produced, checkedTimestampDelta base value = .ok produced
      ∧ (produced.isSome ↔ -2 ^ 63 ≤ value.toInt - base.toInt ∧ value.toInt - base.toInt < 2 ^ 63)
      ∧ ∀ delta ∈ produced, delta.toInt = value.toInt - base.toInt := by
  have hbase := orderedRep_toNat base
  have hvalue := orderedRep_toNat value
  have hsign : signBit.toNat = 2 ^ 63 := rfl
  unfold checkedTimestampDelta
  dsimp only
  split
  next hle =>
    rw [UInt64.le_iff_toNat_le] at hle
    obtain ⟨magnitude, hsub, hmagnitude⟩ := subExact_ok hle
    simp only [hsub, bind, Except.bind]
    split
    next hlarge =>
      rw [UInt64.lt_iff_toNat_lt] at hlarge
      have hmost : (9223372036854775807 : UInt64).toNat = 2 ^ 63 - 1 := rfl
      exact ⟨none, rfl, iff_of_false nofun (by omega), nofun⟩
    next hsmall =>
      rw [UInt64.lt_iff_toNat_lt] at hsmall
      have hmost : (9223372036854775807 : UInt64).toNat = 2 ^ 63 - 1 := rfl
      obtain ⟨delta, hcast, hdelta⟩ := @castExact_ok magnitude (by omega)
      rw [hcast]
      refine ⟨some delta, rfl, iff_of_true rfl (by omega), ?_⟩
      rintro _ ⟨⟩
      omega
  next hlt =>
    rw [UInt64.le_iff_toNat_le] at hlt
    obtain ⟨magnitude, hsub, hmagnitude⟩ := @subExact_ok (orderedRep base) (orderedRep value) (by omega)
    simp only [hsub, bind, Except.bind]
    split
    next hlarge =>
      rw [UInt64.lt_iff_toNat_lt] at hlarge
      exact ⟨none, rfl, iff_of_false nofun (by omega), nofun⟩
    next hsmall =>
      rw [UInt64.lt_iff_toNat_lt] at hsmall
      split
      next heq =>
        -- the least signed number has no positive counterpart to be negated
        have hmost : magnitude.toNat = signBit.toNat := congrArg UInt64.toNat heq
        have hleast : (Int64.minValue).toInt = -2 ^ 63 := rfl
        refine ⟨some Int64.minValue, rfl, iff_of_true rfl (by omega), ?_⟩
        rintro _ ⟨⟩
        omega
      next hnot =>
        have hne : magnitude.toNat ≠ signBit.toNat := fun h => hnot (UInt64.toNat_inj.mp h)
        obtain ⟨positive, hcast, hpositive⟩ := @castExact_ok magnitude (by omega)
        obtain ⟨delta, hneg, hdelta⟩ := @negExact_ok positive (by omega)
        rw [hcast]
        dsimp only
        rw [hneg]
        refine ⟨some delta, rfl, iff_of_true rfl (by omega), ?_⟩
        rintro _ ⟨⟩
        omega

theorem checkedAddTime_spec (time : Int64) (duration : UInt64) :
    ∃ moved, checkedAddTime time duration = .ok moved
      ∧ (moved.isSome ↔ time.toInt + duration.toNat < 2 ^ 63)
      ∧ ∀ later ∈ moved, later.toInt = time.toInt + duration.toNat := by
  have htime := orderedRep_toNat time
  have hmost : (18446744073709551615 : UInt64).toNat = 2 ^ 64 - 1 := rfl
  have hlt := (orderedRep time).toNat_lt
  obtain ⟨room, hsub, hroom⟩ := @subExact_ok 18446744073709551615 (orderedRep time) (by omega)
  unfold checkedAddTime
  simp only [hsub, bind, Except.bind]
  split
  next hfar =>
    rw [UInt64.lt_iff_toNat_lt] at hfar
    exact ⟨none, rfl, iff_of_false nofun (by omega), nofun⟩
  next hnear =>
    rw [UInt64.lt_iff_toNat_lt] at hnear
    obtain ⟨sum, hadd, hsum⟩ := @addExact_ok (orderedRep time) duration (by omega)
    have hsigned := signedRep_toInt sum
    rw [hadd]
    refine ⟨some (signedRep sum), rfl, iff_of_true rfl (by omega), ?_⟩
    rintro _ ⟨⟩
    omega

theorem checkedSubTime_spec (time : Int64) (duration : UInt64) :
    ∃ moved, checkedSubTime time duration = .ok moved
      ∧ (moved.isSome ↔ -2 ^ 63 ≤ time.toInt - duration.toNat)
      ∧ ∀ earlier ∈ moved, earlier.toInt = time.toInt - duration.toNat := by
  have htime := orderedRep_toNat time
  unfold checkedSubTime
  split
  next hfar =>
    rw [UInt64.lt_iff_toNat_lt] at hfar
    exact ⟨none, rfl, iff_of_false nofun (by omega), nofun⟩
  next hnear =>
    rw [UInt64.lt_iff_toNat_lt] at hnear
    obtain ⟨difference, hsub, hdifference⟩ := @subExact_ok (orderedRep time) duration (by omega)
    have hsigned := signedRep_toInt difference
    rw [hsub]
    refine ⟨some (signedRep difference), rfl, iff_of_true rfl (by omega), ?_⟩
    rintro _ ⟨⟩
    omega

/-- **A time is rebuilt** exactly when the sum is one, which is what a record's decoder asks. -/
theorem checkedTimestampFromDelta_spec (base delta : Int64) :
    ∃ rebuilt, checkedTimestampFromDelta base delta = .ok rebuilt
      ∧ (rebuilt.isSome ↔ Representable base delta)
      ∧ ∀ time ∈ rebuilt, time.toInt = base.toInt + delta.toInt := by
  have hlow := base.le_toInt
  have hhigh := base.toInt_lt
  have hzero : (0 : Int64).toInt = 0 := rfl
  unfold checkedTimestampFromDelta Representable
  split
  next hpos =>
    rw [Int64.le_iff_toInt_le, hzero] at hpos
    have hbits := toInt_eq_toUInt64 delta
    have hmagnitude : (delta.toUInt64.toNat : Int) = delta.toInt := by
      have := delta.toUInt64.toNat_lt
      split at hbits <;> omega
    obtain ⟨moved, hmoved, hsome, hsum⟩ := checkedAddTime_spec base delta.toUInt64
    rw [hmagnitude] at hsome hsum
    exact ⟨moved, hmoved, hsome.trans (by omega), hsum⟩
  next hneg =>
    rw [Int64.le_iff_toInt_le, hzero, not_le] at hneg
    obtain ⟨moved, hmoved, hsome, hsum⟩ := checkedSubTime_spec base (0 - delta.toUInt64)
    rw [zero_sub_toNat hneg] at hsome hsum
    refine ⟨moved, hmoved, hsome.trans (by omega), fun time htime => ?_⟩
    have := hsum time htime
    omega

/-- **Differences of times.** Neither direction overflows on any input; a difference is produced exactly
    when it is a signed 64-bit number, and rebuilding from it gives the time back; a time is rebuilt exactly
    when the sum is one. -/
theorem timestamp_deltas (base : Int64) :
    (∀ value, ∃ produced, checkedTimestampDelta base value = .ok produced
      ∧ (produced.isSome ↔ -2 ^ 63 ≤ value.toInt - base.toInt ∧ value.toInt - base.toInt < 2 ^ 63)
      ∧ ∀ delta ∈ produced, delta.toInt = value.toInt - base.toInt
          ∧ checkedTimestampFromDelta base delta = .ok (some value))
    ∧ ∀ delta, ∃ rebuilt, checkedTimestampFromDelta base delta = .ok rebuilt
      ∧ (rebuilt.isSome ↔ -2 ^ 63 ≤ base.toInt + delta.toInt ∧ base.toInt + delta.toInt < 2 ^ 63)
      ∧ ∀ time ∈ rebuilt, time.toInt = base.toInt + delta.toInt := by
  constructor
  · intro value
    obtain ⟨produced, hproduced, hsome, hdelta⟩ := checkedTimestampDelta_spec base value
    refine ⟨produced, hproduced, hsome, fun delta hmem => ⟨hdelta delta hmem, ?_⟩⟩
    obtain ⟨rebuilt, hrebuilt, hfits, hsum⟩ := checkedTimestampFromDelta_spec base delta
    have hlow := value.le_toInt
    have hhigh := value.toInt_lt
    have heq := hdelta delta hmem
    obtain ⟨time, rfl⟩ := Option.isSome_iff_exists.mp (hfits.mpr (by unfold Representable; omega))
    have htime : time = value := Int64.toInt_inj.mp (by rw [hsum time rfl]; omega)
    rw [hrebuilt, htime]
  · intro delta
    obtain ⟨rebuilt, hrebuilt, hfits, hsum⟩ := checkedTimestampFromDelta_spec base delta
    exact ⟨rebuilt, hrebuilt, hfits.trans (by unfold Representable; omega), hsum⟩

end KwaqueStorage.Records
