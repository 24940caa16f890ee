import Mathlib

/-!
# Minimal base-128 numbers

A number as bytes of seven bits each, lowest first, with the high bit set on every byte but the last. Only
the shortest spelling of a number is read: a last byte of zero, unless it is the only one, and bits past the
width of the type are refused. So a number and its bytes determine each other: `probe_digits` reads what
was written, and `probe_eq_ok` says that whatever is read was spelled as it would be written.

The loops run on fuel, the most bytes a number may take, so that they evaluate.
-/

namespace KwaqueStorage.Lib.Base128

/-- The bytes of a number, for which the fuel has to suffice. -/
def digits : Nat → Nat → List UInt8
  | 0, _ => []
  | fuel + 1, n =>
    if n < 128 then [UInt8.ofNat n] else UInt8.ofNat (n % 128 + 128) :: digits fuel (n / 128)

/-- How many bytes a number takes. -/
def width : Nat → Nat → Nat
  | 0, _ => 0
  | fuel + 1, n => if n < 128 then 1 else width fuel (n / 128) + 1

/-- Why a number is not read. -/
inductive Refusal
  /-- Not the shortest spelling, or too large: at a byte. -/
  | malformed (index : Nat)
  /-- The bytes end inside the number. -/
  | shortage
  deriving DecidableEq

/-- A number of so many bits at the start of some bytes, and how many of them it takes. The value so far
    has `7 * index` bits. -/
def probe (bits : Nat) : Nat → Nat → List UInt8 → Except Refusal (Nat × Nat)
  | _, _, [] => .error .shortage
  | index, value, octet :: rest =>
    if octet = 0 ∧ index ≠ 0 then .error (.malformed index)
    else if bits - 7 * index ≤ 7 ∧ 2 ^ (bits - 7 * index) ≤ octet.toNat then .error (.malformed index)
    else if octet.toNat < 128 then .ok (value + octet.toNat % 128 * 2 ^ (7 * index), index + 1)
    else probe bits (index + 1) (value + octet.toNat % 128 * 2 ^ (7 * index)) rest

theorem digits_length {fuel n : Nat} : (digits fuel n).length = width fuel n := by
  induction fuel generalizing n with
  | zero => rfl
  | succ fuel ih =>
    unfold digits width
    split
    next => rfl
    next => rw [List.length_cons, ih]

theorem width_le_of_lt {fuel most n : Nat} (h : n < 128 ^ (most + 1)) : width fuel n ≤ most + 1 := by
  induction fuel generalizing most n with
  | zero => exact Nat.zero_le _
  | succ fuel ih =>
    unfold width
    split
    next => exact Nat.succ_le_succ (Nat.zero_le _)
    next hge =>
      cases most with
      | zero => omega
      | succ most =>
        refine Nat.succ_le_succ (ih ?_)
        rw [Nat.div_lt_iff_lt_mul (by decide), ← Nat.pow_succ]
        exact h

theorem width_pos {fuel n : Nat} (h : 0 < fuel) : 0 < width fuel n := by
  cases fuel with
  | zero => cases h
  | succ fuel =>
    unfold width
    split
    next => exact Nat.one_pos
    next => exact Nat.succ_pos _

theorem toNat_ofNat {n : Nat} (h : n < 256) : (UInt8.ofNat n).toNat = n := by
  rw [UInt8.toNat_ofNat']
  exact Nat.mod_eq_of_lt h

/-- A byte that ends a number of seven bits at a place. -/
theorem probe_last {bits index value n : Nat} {rest : List UInt8} (hn : n < 128)
    (hzero : index = 0 ∨ n ≠ 0) (hfits : n * 2 ^ (7 * index) < 2 ^ bits) :
    probe bits index value (UInt8.ofNat n :: rest) = .ok (value + n * 2 ^ (7 * index), index + 1) := by
  have hoctet : (UInt8.ofNat n).toNat = n := toNat_ofNat (by omega)
  have hne : ¬(UInt8.ofNat n = 0 ∧ index ≠ 0) := by
    rintro ⟨h, hindex⟩
    rcases hzero with hzero | hzero
    · exact hindex hzero
    · rw [h] at hoctet
      exact hzero hoctet.symm
  have hlast : ¬(bits - 7 * index ≤ 7 ∧ 2 ^ (bits - 7 * index) ≤ (UInt8.ofNat n).toNat) := by
    rw [hoctet]
    rintro ⟨_, hle⟩
    have hpow : 2 ^ bits ≤ 2 ^ (bits - 7 * index) * 2 ^ (7 * index) := by
      rw [← Nat.pow_add]
      exact Nat.pow_le_pow_right (by decide) (by omega)
    have hmul := Nat.mul_le_mul_right (2 ^ (7 * index)) hle
    omega
  rw [probe, if_neg hne, if_neg hlast, hoctet, if_pos hn, Nat.mod_eq_of_lt hn]

/-- A byte that continues a number. -/
theorem probe_next {bits index value n : Nat} {rest : List UInt8} (hn : n < 128)
    (hbits : 7 * index + 7 < bits) :
    probe bits index value (UInt8.ofNat (n + 128) :: rest)
      = probe bits (index + 1) (value + n * 2 ^ (7 * index)) rest := by
  have hoctet : (UInt8.ofNat (n + 128)).toNat = n + 128 := toNat_ofNat (by omega)
  have hne : ¬(UInt8.ofNat (n + 128) = 0 ∧ index ≠ 0) := by
    rintro ⟨h, _⟩
    rw [h] at hoctet
    have : (0 : UInt8).toNat = 0 := rfl
    omega
  rw [probe, if_neg hne, if_neg (by omega), hoctet, if_neg (by omega)]
  have hmod : (n + 128) % 128 = n := by omega
  rw [hmod]

/-- What was written is read from a place on, with whatever follows it left over. -/
theorem probe_digits_from {bits fuel index value n : Nat} {rest : List UInt8}
    (hfuel : n < 128 ^ (fuel + 1)) (hzero : index = 0 ∨ n ≠ 0) (hfits : n * 2 ^ (7 * index) < 2 ^ bits) :
    probe bits index value (digits (fuel + 1) n ++ rest)
      = .ok (value + n * 2 ^ (7 * index), index + width (fuel + 1) n) := by
  induction fuel generalizing index value n with
  | zero =>
    rw [digits, width, if_pos (by omega), if_pos (by omega)]
    exact probe_last (by omega) hzero hfits
  | succ fuel ih =>
    rw [digits, width]
    split
    next hlt => exact probe_last hlt hzero hfits
    next hge =>
      have hpow : 2 ^ (7 * (index + 1)) = 128 * 2 ^ (7 * index) := by
        rw [Nat.mul_add, Nat.pow_add]
        omega
      have hsplit : n * 2 ^ (7 * index)
          = n % 128 * 2 ^ (7 * index) + n / 128 * 2 ^ (7 * (index + 1)) := by
        rw [hpow, ← Nat.mul_assoc, ← Nat.add_mul]
        congr 1
        omega
      have hbits : 7 * index + 7 < bits := by
        by_contra hle
        have hbound : 2 ^ bits ≤ 2 ^ (7 * (index + 1)) :=
          Nat.pow_le_pow_right (by decide) (by omega)
        have hone : 1 * 2 ^ (7 * (index + 1)) ≤ n / 128 * 2 ^ (7 * (index + 1)) :=
          Nat.mul_le_mul_right _ (by omega)
        omega
      have hsmall : n / 128 < 128 ^ (fuel + 1) := by
        rw [Nat.div_lt_iff_lt_mul (by decide), ← Nat.pow_succ]
        exact hfuel
      rw [List.cons_append, probe_next (Nat.mod_lt _ (by decide)) hbits,
        ih hsmall (.inr (by omega)) (by omega), hsplit]
      congr 2
      · omega
      · omega

/-- **What was written is read**, with whatever follows it left over. -/
theorem probe_digits {bits fuel n : Nat} {rest : List UInt8} (hfuel : n < 128 ^ (fuel + 1))
    (hfits : n < 2 ^ bits) :
    probe bits 0 0 (digits (fuel + 1) n ++ rest) = .ok (n, width (fuel + 1) n) := by
  have h := @probe_digits_from bits fuel 0 0 n rest hfuel (.inl rfl) (by omega)
  rwa [Nat.mul_zero, Nat.pow_zero, Nat.mul_one, Nat.zero_add, Nat.zero_add] at h

/-- A byte that is read at a place: it ends the number, or the width has room for more. -/
theorem probe_cons_eq_ok {bits index value total size : Nat} {octet : UInt8} {rest : List UInt8}
    (h : probe bits index value (octet :: rest) = .ok (total, size)) (hindex : 7 * index < bits) :
    (octet.toNat < 128 ∧ (index = 0 ∨ octet.toNat ≠ 0) ∧ octet.toNat * 2 ^ (7 * index) < 2 ^ bits
      ∧ total = value + octet.toNat * 2 ^ (7 * index) ∧ size = index + 1)
    ∨ (128 ≤ octet.toNat ∧ 7 * (index + 1) < bits
      ∧ probe bits (index + 1) (value + octet.toNat % 128 * 2 ^ (7 * index)) rest
        = .ok (total, size)) := by
  rw [probe] at h
  split at h
  next => cases h
  next hzero =>
    split at h
    next => cases h
    next hlast =>
      split at h
      next hlt =>
        cases h
        refine .inl ⟨hlt, ?_, ?_, ?_, rfl⟩
        · by_cases hfirst : index = 0
          · exact .inl hfirst
          · refine .inr fun hnil => hzero ⟨?_, hfirst⟩
            exact UInt8.toNat_inj.mp hnil
        · have hsmall : octet.toNat < 2 ^ (bits - 7 * index) := by
            by_contra hle
            refine hlast ⟨?_, Nat.not_lt.mp hle⟩
            by_contra hmore
            have hpow : 2 ^ 7 ≤ 2 ^ (bits - 7 * index) := Nat.pow_le_pow_right (by decide) (by omega)
            omega
          calc octet.toNat * 2 ^ (7 * index)
              < 2 ^ (bits - 7 * index) * 2 ^ (7 * index) :=
                Nat.mul_lt_mul_of_pos_right hsmall (Nat.two_pow_pos _)
            _ = 2 ^ bits := by
              rw [← Nat.pow_add]
              congr 1
              omega
        · rw [Nat.mod_eq_of_lt hlt]
      next hge =>
        refine .inr ⟨Nat.not_lt.mp hge, ?_, h⟩
        by_contra hle
        refine hlast ⟨by omega, ?_⟩
        have hpow : 2 ^ (bits - 7 * index) ≤ 2 ^ 7 := Nat.pow_le_pow_right (by decide) (by omega)
        omega

/-- Whatever is read from a place on was spelled as it would be written, and fits the width. -/
theorem probe_from_eq_ok {bits fuel index value total size : Nat} {octets : List UInt8}
    (h : probe bits index value octets = .ok (total, size)) (hfuel : bits ≤ 7 * (index + fuel + 1))
    (hindex : 7 * index < bits) :
    ∃ n rest, octets = digits (fuel + 1) n ++ rest ∧ total = value + n * 2 ^ (7 * index)
      ∧ size = index + width (fuel + 1) n ∧ (index = 0 ∨ n ≠ 0) ∧ n * 2 ^ (7 * index) < 2 ^ bits := by
  induction octets generalizing index value fuel with
  | nil => cases h
  | cons octet rest ih =>
    rcases probe_cons_eq_ok h hindex with ⟨hlt, hzero, hfits, rfl, rfl⟩ | ⟨hge, hroom, hrest⟩
    · refine ⟨octet.toNat, rest, ?_, rfl, ?_, hzero, hfits⟩
      · rw [digits, if_pos hlt, UInt8.ofNat_toNat]
        rfl
      · rw [width, if_pos hlt]
    · cases fuel with
      | zero => omega
      | succ fuel =>
        obtain ⟨n, more, hmore, htotal, hsize, hnonzero, hfits⟩ :=
          @ih fuel (index + 1) _ hrest (by omega) hroom
        have hn : n ≠ 0 := hnonzero.resolve_left (Nat.succ_ne_zero _)
        have hoctet := octet.toNat_lt
        have hpow : 2 ^ (7 * (index + 1)) = 128 * 2 ^ (7 * index) := by
          rw [Nat.mul_add, Nat.pow_add]
          omega
        have hsplit : (octet.toNat % 128 + 128 * n) * 2 ^ (7 * index)
            = octet.toNat % 128 * 2 ^ (7 * index) + n * 2 ^ (7 * (index + 1)) := by
          rw [hpow, Nat.add_mul, ← Nat.mul_assoc, Nat.mul_comm n 128]
        have hmod : (octet.toNat % 128 + 128 * n) % 128 + 128 = octet.toNat := by omega
        have hdiv : (octet.toNat % 128 + 128 * n) / 128 = n := by omega
        have hlarge : ¬octet.toNat % 128 + 128 * n < 128 := by omega
        refine ⟨octet.toNat % 128 + 128 * n, more, ?_, ?_, ?_, .inr (by omega), ?_⟩
        · rw [digits, if_neg hlarge, hmod, hdiv, UInt8.ofNat_toNat, hmore]
          rfl
        · rw [htotal, hsplit, Nat.add_assoc]
        · rw [width, if_neg hlarge, hdiv, hsize]
          omega
        · -- the number above these seven bits is a whole one below the width, so they fit beneath it
          have hwhole : 2 ^ bits = 2 ^ (bits - 7 * (index + 1)) * 2 ^ (7 * (index + 1)) := by
            rw [← Nat.pow_add]
            congr 1
            omega
          have hlt : n < 2 ^ (bits - 7 * (index + 1)) := by
            rw [hwhole] at hfits
            exact Nat.lt_of_mul_lt_mul_right hfits
          have hmost : (n + 1) * 2 ^ (7 * (index + 1)) ≤ 2 ^ bits := by
            rw [hwhole]
            exact Nat.mul_le_mul_right _ hlt
          have hlow : octet.toNat % 128 * 2 ^ (7 * index) < 128 * 2 ^ (7 * index) :=
            Nat.mul_lt_mul_of_pos_right (Nat.mod_lt _ (by decide)) (Nat.two_pow_pos _)
          rw [Nat.add_mul, Nat.one_mul, hpow] at hmost
          rw [hsplit, hpow]
          omega

/-- **Whatever is read was spelled as it would be written**, and fits the width. -/
theorem probe_eq_ok {bits fuel n size : Nat} {octets : List UInt8}
    (h : probe bits 0 0 octets = .ok (n, size)) (hfuel : bits ≤ 7 * (fuel + 1)) (hbits : 0 < bits) :
    size = width (fuel + 1) n ∧ n < 2 ^ bits ∧ ∃ rest, octets = digits (fuel + 1) n ++ rest := by
  obtain ⟨m, rest, hoctets, hn, hsize, _, hfits⟩ :=
    @probe_from_eq_ok bits fuel 0 0 n size octets h (by omega) (by omega)
  obtain rfl : n = m := by omega
  exact ⟨by omega, by omega, rest, hoctets⟩

/-! ## Spellings -/

/-- Bytes that spell a number, the shortest or not. -/
inductive Spells : List UInt8 → Nat → Prop
  | last {octet : UInt8} : octet.toNat < 128 → Spells [octet] octet.toNat
  | more {octet : UInt8} {rest : List UInt8} {n : Nat} :
      128 ≤ octet.toNat → Spells rest n → Spells (octet :: rest) (octet.toNat - 128 + 128 * n)

theorem spells_digits {fuel n : Nat} (h : n < 128 ^ (fuel + 1)) : Spells (digits (fuel + 1) n) n := by
  induction fuel generalizing n with
  | zero =>
    have hlast := @Spells.last (UInt8.ofNat n) (by rw [toNat_ofNat (by omega)]; omega)
    rw [toNat_ofNat (by omega)] at hlast
    rw [digits, if_pos (by omega)]
    exact hlast
  | succ fuel ih =>
    rw [digits]
    split
    next hlt =>
      have hlast := @Spells.last (UInt8.ofNat n) (by rw [toNat_ofNat (by omega)]; omega)
      rwa [toNat_ofNat (by omega)] at hlast
    next =>
      have hsmall : n / 128 < 128 ^ (fuel + 1) := by
        rw [Nat.div_lt_iff_lt_mul (by decide), ← Nat.pow_succ]
        exact h
      have hmore := @Spells.more (UInt8.ofNat (n % 128 + 128)) _ _ (by rw [toNat_ofNat (by omega)]; omega)
        (ih hsmall)
      have hn : n % 128 + 128 - 128 + 128 * (n / 128) = n := by omega
      rwa [toNat_ofNat (by omega), hn] at hmore

/-- **The shortest spelling** of a number is the one that is written, and no other is as short. -/
theorem Spells.shortest {octets : List UInt8} {fuel n : Nat} (h : Spells octets n)
    (hfuel : n < 128 ^ (fuel + 1)) :
    octets = digits (fuel + 1) n ∨ (digits (fuel + 1) n).length < octets.length := by
  induction h generalizing fuel with
  | @last octet hlt =>
    rw [digits, if_pos hlt, UInt8.ofNat_toNat]
    exact .inl rfl
  | @more octet rest n hge hrest ih =>
    have hoctet := octet.toNat_lt
    rw [digits]
    split
    next =>
      have hpos : 0 < rest.length := by cases hrest <;> exact Nat.succ_pos _
      exact .inr (Nat.succ_lt_succ hpos)
    next hlarge =>
      have hdiv : (octet.toNat - 128 + 128 * n) / 128 = n := by omega
      have hmod : (octet.toNat - 128 + 128 * n) % 128 + 128 = octet.toNat := by omega
      rw [hdiv, hmod, UInt8.ofNat_toNat]
      cases fuel with
      | zero => omega
      | succ fuel =>
        rw [Nat.pow_succ] at hfuel
        rcases @ih fuel (by omega) with heq | hlt
        · exact .inl (congrArg _ heq)
        · exact .inr (Nat.succ_lt_succ hlt)

end KwaqueStorage.Lib.Base128
