import KwaqueStorage.Codec.Work
import KwaqueStorage.Records.Parser

/-!
# Extensions of a header

Behind the fixed part of a header lies a region of extensions: each is a prefix of eight octets, which
names a tag, flags and the length of a value, and the value. The reader has none of them. It checks each
prefix and passes the value by, in pieces of one fragment and one quantum of work at most, while a counter
says how much of the region is left.

The grammar of a region is stated apart, over the octets alone. What the reader accepts is what the grammar
says, through any fragmentation; how much it may do at a time does not show, but when a quantum is too
small for one prefix.
-/

namespace KwaqueStorage.Codec

open Extent (u64Max)
open Layout Lib Records RetryPages

/-! ## The reader -/

/-- `header_extension_field`. -/
inductive ExtensionField
  | region
  | count
  | tag
  | flags
  | value
  deriving DecidableEq

/-- `codec::error` of an extension. -/
structure ExtensionError where
  code : Errc
  field : ExtensionField
  offset : Nat
  deriving DecidableEq

/-- `extension_error`. -/
def extensionError (field : ExtensionField) (offset : Nat) (code : Errc) : ExtensionError :=
  ⟨code, field, offset⟩

/-- Where leave is asked for, with the place in the region. -/
inductive ExtensionPlace
  | start
  | region
  | entry (offset : Nat)
  | piece (offset : Nat)
  | done
  deriving DecidableEq

/-- `header_extension_prefix_work_bytes`. -/
def headerExtensionPrefixWorkBytes : Nat := 32

/-- `header_extension_prefix_work_items`. -/
def headerExtensionPrefixWorkItems : Nat := 16

section Scan

variable (work : Work ExtensionPlace) (regionEnd : Nat)

/-- The inner loop: a value is passed by in pieces, none of them empty. The fuel is what is left of it. -/
def skipValue : Nat → Nat → Nat → Parser → Except ExtensionError Unit × Parser
  | 0, _, _, input => (.ok (), input)
  | fuel + 1, remaining, valueRemaining, input =>
    if valueRemaining = 0 then (.ok (), input)
    else
      let size := min valueRemaining (min input.currentFragment.length work.policy.config.maxWorkBytes)
      match work.spend (.piece (regionEnd - remaining)) size 2
          (extensionError .value (regionEnd - remaining)) with
      | .error why => (.error why, input)
      | .ok () => skipValue fuel (remaining - size) (valueRemaining - size) (input.advance size)

/-- What is checked before a prefix is read. -/
def enterPrefix (remaining count : Nat) : Except ExtensionError Unit := do
  require (headerExtensionPrefixBytes ≤ remaining) (extensionError .tag regionEnd .malformedData)
  let prefixStart := regionEnd - remaining
  work.spend (.entry prefixStart) headerExtensionPrefixWorkBytes headerExtensionPrefixWorkItems
    (extensionError .tag prefixStart)
  require (count ≠ work.policy.maxExtensions) (extensionError .count prefixStart .resourceExhausted)

/-- What is checked of a prefix: its tag, and the length of its value, against what is left behind it. -/
def checkPrefix (prefixStart remaining previousTag : Nat) (encoded : List UInt8) :
    Except ExtensionError (Nat × Nat) := do
  let tag := load encoded 0 2
  let flags := load encoded 2 2
  let valueLength := load encoded 4 4
  require (tag ≠ 0 ∧ previousTag < tag) (extensionError .tag prefixStart .malformedData)
  require (flags &&& 0xfffe = 0) (extensionError .flags (prefixStart + 2) .unsupportedFormat)
  require (valueLength ≤ remaining) (extensionError .value regionEnd .malformedData)
  require (flags &&& 1 = 0) (extensionError .tag prefixStart .unsupportedFormat)
  pure (tag, valueLength)

/-- The loop over the region. The fuel is what is left of it. -/
def scanEntries : Nat → Nat → Nat → Nat → Parser → Except ExtensionError Nat × Parser
  | 0, _, _, count, input => (.ok count, input)
  | fuel + 1, remaining, previousTag, count, input =>
    if remaining = 0 then (.ok count, input)
    else
      match enterPrefix work regionEnd remaining count with
      | .error why => (.error why, input)
      | .ok () =>
        let left := remaining - headerExtensionPrefixBytes
        let behind := input.advance headerExtensionPrefixBytes
        match checkPrefix regionEnd (regionEnd - remaining) left previousTag
            (input.peek headerExtensionPrefixBytes) with
        | .error why => (.error why, behind)
        | .ok (tag, valueLength) =>
          match skipValue work regionEnd valueLength left valueLength behind with
          | (.error why, stopped) => (.error why, stopped)
          | (.ok (), passed) => scanEntries fuel (left - valueLength) tag (count + 1) passed

/-- What is checked before the first prefix. -/
def enterRegion (extensionBytes fixedHeaderBytes origin : Nat) (input : Parser) :
    Except ExtensionError Unit := do
  require (origin + input.total ≤ u64Max) (extensionError .region origin .invalidArgument)
  let anchor := extensionError .region (origin + input.consumed)
  work.poll .start false anchor
  require (input.checkpoints.length ≠ 0 ∧ 32 ≤ fixedHeaderBytes) (anchor .invalidArgument)
  require (fixedHeaderBytes + extensionBytes ≤ u64Max) (anchor .invalidArgument)
  require (fixedHeaderBytes + extensionBytes ≤ work.policy.config.maxHeaderBytes)
    (anchor .resourceExhausted)
  require (extensionBytes ≤ input.remaining)
    (extensionError .region (origin + input.total) .malformedData)
  work.spend .region 0 0 anchor

end Scan

/-- `scan_header_extensions_in_transaction`: how many extensions there are. It rolls nothing back. -/
def scanHeaderExtensionsInTransaction (work : Work ExtensionPlace) (input : Parser)
    (extensionBytes fixedHeaderBytes origin : Nat) : Except ExtensionError Nat × Parser :=
  match enterRegion work extensionBytes fixedHeaderBytes origin input with
  | .error why => (.error why, input)
  | .ok () =>
    let start := origin + input.consumed
    match scanEntries work (start + extensionBytes) extensionBytes extensionBytes 0 0 input with
    | (.error why, stopped) => (.error why, stopped)
    | (.ok count, passed) =>
      match work.poll .done true (extensionError .region start) with
      | .error why => (.error why, passed)
      | .ok () => (.ok count, passed)

/-! ## The grammar -/

/-- The tag an extension names. -/
def extensionTag (entry : List UInt8) : Nat := load entry 0 2

/-- One extension: no flag is set, and the value is as long as its prefix says. -/
structure IsExtension (entry : List UInt8) : Prop where
  flags : load entry 2 2 = 0
  length : entry.length = headerExtensionPrefixBytes + load entry 4 4

/-- Extensions whose tags rise from one before them. -/
structure Extensions (previousTag : Nat) (entries : List (List UInt8)) : Prop where
  each : ∀ entry ∈ entries, IsExtension entry
  rise : List.IsChain (· < ·) (previousTag :: entries.map extensionTag)

theorem Extensions.nil {previousTag : Nat} : Extensions previousTag [] :=
  ⟨nofun, .singleton _⟩

theorem extensions_cons {previousTag : Nat} {entry : List UInt8} {entries : List (List UInt8)} :
    Extensions previousTag (entry :: entries)
      ↔ IsExtension entry ∧ previousTag < extensionTag entry ∧ Extensions (extensionTag entry) entries := by
  constructor
  · rintro ⟨heach, hrise⟩
    rw [List.map_cons, List.isChain_cons_cons] at hrise
    exact ⟨heach entry (List.mem_cons_self ..), hrise.1,
      fun other hmem => heach other (List.mem_cons_of_mem _ hmem), hrise.2⟩
  · rintro ⟨hentry, hlt, heach, hrise⟩
    refine ⟨List.forall_mem_cons.mpr ⟨hentry, heach⟩, ?_⟩
    rw [List.map_cons, List.isChain_cons_cons]
    exact ⟨hlt, hrise⟩

/-! ## What is accepted -/

section Accept

variable {work : Work ExtensionPlace} {regionEnd fuel remaining count : Nat} {input : Parser}

/-- **A value** is passed by in whole or in part, and in whole unless leave is refused. -/
theorem skipValue_spec {valueRemaining : Nat} (hrest : valueRemaining ≤ input.rest.length)
    (hfuel : valueRemaining ≤ fuel) :
    ∃ passed ≤ valueRemaining,
      (skipValue work regionEnd fuel remaining valueRemaining input).2 = input.advance passed
      ∧ ((skipValue work regionEnd fuel remaining valueRemaining input).1 = .ok () → passed = valueRemaining)
      ∧ (work.Unaborted → 2 ≤ work.policy.config.maxWorkItems →
        (skipValue work regionEnd fuel remaining valueRemaining input).1 = .ok ()) := by
  induction fuel generalizing remaining valueRemaining input with
  | zero =>
    have hzero : valueRemaining = 0 := Nat.le_zero.mp hfuel
    exact ⟨0, Nat.zero_le _, Parser.advance_zero.symm, fun _ => hzero.symm, fun _ _ => rfl⟩
  | succ fuel ih =>
    rw [skipValue]
    split
    next hzero =>
      exact ⟨0, Nat.zero_le _, Parser.advance_zero.symm, fun _ => hzero.symm, fun _ _ => rfl⟩
    next hmore =>
      dsimp only
      have hinside : 0 < input.currentFragment.length := by
        rw [List.length_pos_iff, Ne, Parser.currentFragment_eq_nil, ← Ne, ← List.length_pos_iff]
        omega
      have hquantum := (Work.quanta_pos work.policy.toLimits).1
      generalize hpiece : min valueRemaining (min input.currentFragment.length
        work.policy.config.maxWorkBytes) = size
      have hsize : size ≤ input.rest.length := by omega
      cases hspend : work.spend (.piece (regionEnd - remaining)) size 2
          (extensionError .value (regionEnd - remaining)) with
      | error why =>
        refine ⟨0, Nat.zero_le _, Parser.advance_zero.symm, nofun, fun hfree hitems => ?_⟩
        cases hspend.symm.trans (Work.spend_ok hfree (by omega) (by omega))
      | ok _ =>
        have hleft : valueRemaining - size ≤ (input.advance size).rest.length := by
          rw [Parser.advance_rest hsize, List.length_drop]
          omega
        obtain ⟨passed, hle, hinput, hall, hfree⟩ :=
          @ih (remaining - size) (input.advance size) (valueRemaining - size) hleft (by omega)
        refine ⟨size + passed, by omega, ?_, fun h => ?_, hfree⟩
        · rw [← Parser.advance_advance (by omega)]
          exact hinput
        · have := hall h
          omega

/-- Flags that are neither unknown nor mandatory. -/
theorem flags_eq_zero {flags : Nat} (h : flags < 65536) :
    (flags &&& 0xfffe = 0 ∧ flags &&& 1 = 0) ↔ flags = 0 := by
  constructor
  · rintro ⟨hhigh, hlow⟩
    have hsplit : flags &&& (0xfffe ||| 1) = (flags &&& 0xfffe) ||| (flags &&& 1) :=
      Nat.and_or_distrib_left ..
    have hall : flags &&& (2 ^ 16 - 1) = flags % 2 ^ 16 := Nat.and_two_pow_sub_one_eq_mod flags 16
    rw [hhigh, hlow] at hsplit
    calc flags = flags % 2 ^ 16 := (Nat.mod_eq_of_lt h).symm
      _ = flags &&& (0xfffe ||| 1) := hall.symm
      _ = 0 := hsplit
  · rintro rfl
    exact ⟨rfl, rfl⟩

theorem checkPrefix_eq_ok {prefixStart previousTag tag valueLength : Nat} {encoded : List UInt8} :
    checkPrefix regionEnd prefixStart remaining previousTag encoded = .ok (tag, valueLength)
      ↔ load encoded 2 2 = 0 ∧ previousTag < load encoded 0 2 ∧ load encoded 4 4 ≤ remaining
        ∧ tag = load encoded 0 2 ∧ valueLength = load encoded 4 4 := by
  have hflags : load encoded 2 2 < 65536 := by
    have hlt := littleEndian_lt (field encoded 2 2)
    have hlen : (field encoded 2 2).length ≤ 2 := List.length_take_le _ _
    exact hlt.trans_le (Nat.pow_le_pow_right (by decide) hlen)
  unfold checkPrefix
  simp only [bind_eq_ok, require_eq_ok, exists_const, pure_eq_ok, Prod.mk.injEq]
  rw [← flags_eq_zero hflags]
  constructor
  · rintro ⟨⟨_, hrise⟩, hhigh, hlength, hlow, rfl, rfl⟩
    exact ⟨⟨hhigh, hlow⟩, hrise, hlength, rfl, rfl⟩
  · rintro ⟨⟨hhigh, hlow⟩, hrise, hlength, rfl, rfl⟩
    exact ⟨⟨by omega, hrise⟩, hhigh, hlength, hlow, rfl, rfl⟩

theorem enterPrefix_ok {u : Unit} (h : enterPrefix work regionEnd remaining count = .ok u) :
    headerExtensionPrefixBytes ≤ remaining ∧ count ≠ work.policy.maxExtensions
      ∧ 32 ≤ work.policy.config.maxWorkBytes ∧ 16 ≤ work.policy.config.maxWorkItems := by
  unfold enterPrefix at h
  simp only [bind_eq_ok, require_eq_ok, exists_const] at h
  obtain ⟨hremaining, _, hspend, hcount⟩ := h
  exact ⟨hremaining, hcount, Work.fits_of_spend hspend⟩

/-- The prefix under the cursor is that of an extension as long as what is taken of the rest. -/
theorem load_peek {offset width size : Nat} (h : offset + width ≤ headerExtensionPrefixBytes)
    (hsize : headerExtensionPrefixBytes ≤ size) :
    load (input.peek headerExtensionPrefixBytes) offset width = load (input.rest.take size) offset width := by
  rw [Parser.peek_eq, load_take h, load_take (h.trans hsize)]

/-- An extension that lies at the cursor, inside the region. -/
structure Lies (input : Parser) (remaining previousTag size : Nat) : Prop where
  inside : size ≤ remaining
  extension : IsExtension (input.rest.take size)
  rises : previousTag < extensionTag (input.rest.take size)

theorem Lies.size_eq {previousTag size : Nat} (h : Lies input remaining previousTag size)
    (hrest : remaining ≤ input.rest.length) :
    size = headerExtensionPrefixBytes + load (input.rest.take size) 4 4 := by
  have hlength := h.extension.length
  rwa [List.length_take_of_le (h.inside.trans hrest)] at hlength

/-- **One turn** of the loop stops inside the region, or passes one extension by. -/
theorem scanEntries_turn {previousTag : Nat} (hmore : remaining ≠ 0) (hrest : remaining ≤ input.rest.length) :
    (∃ passed ≤ remaining, ∃ why, scanEntries work regionEnd (fuel + 1) remaining previousTag count input
      = (.error why, input.advance passed))
    ∨ ∃ size, Lies input remaining previousTag size ∧ count ≠ work.policy.maxExtensions
      ∧ (32 ≤ work.policy.config.maxWorkBytes ∧ 16 ≤ work.policy.config.maxWorkItems)
      ∧ scanEntries work regionEnd (fuel + 1) remaining previousTag count input
        = scanEntries work regionEnd fuel (remaining - size) (extensionTag (input.rest.take size)) (count + 1)
          (input.advance size) := by
  rw [scanEntries, if_neg hmore]
  cases henter : enterPrefix work regionEnd remaining count with
  | error why => exact .inl ⟨0, Nat.zero_le _, why, congrArg (_, ·) Parser.advance_zero.symm⟩
  | ok _ =>
    obtain ⟨hlead, hcount, hquanta⟩ := enterPrefix_ok henter
    dsimp only
    cases hcheck : checkPrefix regionEnd (regionEnd - remaining) (remaining - headerExtensionPrefixBytes)
        previousTag (input.peek headerExtensionPrefixBytes) with
    | error why => exact .inl ⟨headerExtensionPrefixBytes, hlead, why, rfl⟩
    | ok checked =>
      obtain ⟨tag, valueLength⟩ := checked
      obtain ⟨hflags, hrise, hlength, rfl, hvalue⟩ := checkPrefix_eq_ok.mp hcheck
      rw [← hvalue] at hlength
      have hpeek : ∀ offset width, offset + width ≤ headerExtensionPrefixBytes →
          load (input.peek headerExtensionPrefixBytes) offset width
            = load (input.rest.take (headerExtensionPrefixBytes + valueLength)) offset width :=
        fun offset width h => load_peek h (Nat.le_add_right _ _)
      rw [hpeek 2 2 (by decide)] at hflags
      rw [hpeek 4 4 (by decide)] at hvalue
      rw [hpeek 0 2 (by decide)] at hrise ⊢
      have hinside : headerExtensionPrefixBytes + valueLength ≤ remaining := by omega
      have hbehind : valueLength ≤ (input.advance headerExtensionPrefixBytes).rest.length := by
        rw [Parser.advance_rest (by omega), List.length_drop]
        omega
      obtain ⟨skipped, hle, hinput, hall, _⟩ := @skipValue_spec work regionEnd valueLength
        (remaining - headerExtensionPrefixBytes) (input.advance headerExtensionPrefixBytes)
        valueLength hbehind (Nat.le_refl _)
      rw [Parser.advance_advance (by omega)] at hinput
      dsimp only
      rcases hskip : skipValue work regionEnd valueLength (remaining - headerExtensionPrefixBytes)
        valueLength (input.advance headerExtensionPrefixBytes) with ⟨why | _, stopped⟩
      · rw [hskip] at hinput
        exact .inl ⟨headerExtensionPrefixBytes + skipped, by omega, why, congrArg (_, ·) hinput⟩
      · rw [hskip] at hinput hall
        obtain rfl : skipped = valueLength := hall rfl
        refine .inr ⟨headerExtensionPrefixBytes + skipped, ⟨hinside, ⟨hflags, ?_⟩, hrise⟩, hcount, hquanta, ?_⟩
        · rw [List.length_take_of_le (hinside.trans hrest), ← hvalue]
        · rw [← show stopped = _ from hinput, Nat.sub_sub]
          rfl

/-- An extension that lies at the cursor is passed by, unless leave is refused. -/
theorem scanEntries_passes {previousTag size : Nat} (hrest : remaining ≤ input.rest.length)
    (hlies : Lies input remaining previousTag size) (hcount : count ≠ work.policy.maxExtensions)
    (hfree : work.Unaborted) (hbytes : 32 ≤ work.policy.config.maxWorkBytes)
    (hitems : 16 ≤ work.policy.config.maxWorkItems) :
    scanEntries work regionEnd (fuel + 1) remaining previousTag count input
      = scanEntries work regionEnd fuel (remaining - size) (extensionTag (input.rest.take size)) (count + 1)
        (input.advance size) := by
  have hsize := hlies.size_eq hrest
  have hinside := hlies.inside
  have hpos : 0 < headerExtensionPrefixBytes := by decide
  have hpeek : ∀ offset width, offset + width ≤ headerExtensionPrefixBytes →
      load (input.peek headerExtensionPrefixBytes) offset width = load (input.rest.take size) offset width :=
    fun offset width h => load_peek h (by omega)
  have henter : enterPrefix work regionEnd remaining count = .ok () := by
    unfold enterPrefix
    simp only [bind_eq_ok, require_eq_ok, exists_const]
    exact ⟨by omega, (), Work.spend_ok hfree hbytes hitems, hcount⟩
  have hcheck : checkPrefix regionEnd (regionEnd - remaining) (remaining - headerExtensionPrefixBytes)
      previousTag (input.peek headerExtensionPrefixBytes)
      = .ok (extensionTag (input.rest.take size), size - headerExtensionPrefixBytes) := by
    rw [checkPrefix_eq_ok, hpeek 2 2 (by decide), hpeek 0 2 (by decide), hpeek 4 4 (by decide)]
    exact ⟨hlies.extension.flags, hlies.rises, by omega, rfl, by omega⟩
  have hbehind : size - headerExtensionPrefixBytes
      ≤ (input.advance headerExtensionPrefixBytes).rest.length := by
    rw [Parser.advance_rest (by omega), List.length_drop]
    omega
  obtain ⟨skipped, _, hinput, hall, hskipped⟩ := @skipValue_spec work regionEnd
    (size - headerExtensionPrefixBytes) (remaining - headerExtensionPrefixBytes)
    (input.advance headerExtensionPrefixBytes) (size - headerExtensionPrefixBytes) hbehind (Nat.le_refl _)
  replace hskipped := hskipped hfree (by omega)
  obtain rfl : skipped = size - headerExtensionPrefixBytes := hall hskipped
  rw [Parser.advance_advance (by omega), Nat.add_sub_cancel' (by omega)] at hinput
  have hskip : skipValue work regionEnd (size - headerExtensionPrefixBytes)
      (remaining - headerExtensionPrefixBytes) (size - headerExtensionPrefixBytes)
      (input.advance headerExtensionPrefixBytes) = (.ok (), input.advance size) := Prod.ext hskipped hinput
  rw [scanEntries, if_neg (by omega), henter]
  dsimp only
  rw [hcheck]
  dsimp only
  rw [hskip, Nat.sub_sub, Nat.add_sub_cancel' (by omega)]

theorem scanEntries_zero {previousTag : Nat} :
    scanEntries work regionEnd fuel 0 previousTag count input = (.ok count, input) := by
  cases fuel with
  | zero => rfl
  | succ fuel => rw [scanEntries, if_pos rfl]

/-- **The reader stays** inside the region, whatever comes of it. -/
theorem scanEntries_within {previousTag : Nat} (hrest : remaining ≤ input.rest.length) :
    ∃ passed ≤ remaining,
      (scanEntries work regionEnd fuel remaining previousTag count input).2 = input.advance passed := by
  induction fuel generalizing remaining previousTag count input with
  | zero => exact ⟨0, Nat.zero_le _, Parser.advance_zero.symm⟩
  | succ fuel ih =>
    by_cases hmore : remaining = 0
    · rw [hmore, scanEntries_zero]
      exact ⟨0, Nat.zero_le _, Parser.advance_zero.symm⟩
    rcases @scanEntries_turn work regionEnd fuel remaining count input previousTag hmore hrest with
      ⟨passed, hpassed, why, h⟩ | ⟨size, hlies, _, _, h⟩
    · rw [h]
      exact ⟨passed, hpassed, rfl⟩
    · have hsize := hlies.inside
      have hleft : remaining - size ≤ (input.advance size).rest.length := by
        rw [Parser.advance_rest (by omega), List.length_drop]
        omega
      obtain ⟨passed, hpassed, hinput⟩ :=
        @ih (remaining - size) (count + 1) (input.advance size) (extensionTag (input.rest.take size)) hleft
      refine ⟨size + passed, by omega, ?_⟩
      rw [h, hinput, Parser.advance_advance (by omega)]

/-- What the region holds, when the reader gets through it. -/
theorem scanEntries_ok {previousTag total : Nat} {input' : Parser} (hrest : remaining ≤ input.rest.length)
    (hfuel : remaining ≤ fuel) (hcount : count ≤ work.policy.maxExtensions)
    (h : scanEntries work regionEnd fuel remaining previousTag count input = (.ok total, input')) :
    ∃ entries, Extensions previousTag entries ∧ entries.flatten = input.rest.take remaining
      ∧ total = count + entries.length ∧ total ≤ work.policy.maxExtensions
      ∧ input' = input.advance remaining
      ∧ (entries ≠ [] → 32 ≤ work.policy.config.maxWorkBytes ∧ 16 ≤ work.policy.config.maxWorkItems) := by
  induction fuel generalizing remaining previousTag count input with
  | zero =>
    obtain rfl : remaining = 0 := Nat.le_zero.mp hfuel
    cases h
    exact ⟨[], Extensions.nil, rfl, rfl, hcount, Parser.advance_zero.symm, fun h => absurd rfl h⟩
  | succ fuel ih =>
    by_cases hmore : remaining = 0
    · rw [hmore, scanEntries_zero] at h
      cases h
      rw [hmore, Parser.advance_zero]
      exact ⟨[], Extensions.nil, rfl, rfl, hcount, rfl, fun h => absurd rfl h⟩
    rcases @scanEntries_turn work regionEnd fuel remaining count input previousTag hmore hrest with
      ⟨passed, hpassed, why, hstop⟩ | ⟨size, hlies, hroom, hquanta, hturn⟩
    · cases hstop.symm.trans h
    · have hinside := hlies.inside
      have hsize := hlies.size_eq hrest
      have hpos : 0 < headerExtensionPrefixBytes := by decide
      have hadvance : (input.advance size).rest = input.rest.drop size := Parser.advance_rest (by omega)
      obtain ⟨entries, hentries, hflat, htotal, hmost, hinput, _⟩ :=
        ih (by rw [hadvance, List.length_drop]; omega) (by omega) (by omega) (hturn.symm.trans h)
      refine ⟨input.rest.take size :: entries, extensions_cons.mpr ⟨hlies.extension, hlies.rises, hentries⟩,
        ?_, ?_, hmost, ?_, fun _ => hquanta⟩
      · rw [List.flatten_cons, hflat, hadvance, ← List.take_add, Nat.add_sub_cancel' hinside]
      · rw [htotal, List.length_cons]
        omega
      · rw [hinput, Parser.advance_advance (by omega), Nat.add_sub_cancel' hinside]

/-- A region of extensions is read, when no leave is refused. -/
theorem scanEntries_accepts {previousTag : Nat} {entries : List (List UInt8)}
    (hentries : Extensions previousTag entries) (hrest : remaining ≤ input.rest.length)
    (hfuel : remaining ≤ fuel) (hflat : entries.flatten = input.rest.take remaining)
    (hmost : count + entries.length ≤ work.policy.maxExtensions) (hfree : work.Unaborted)
    (hquanta : entries ≠ [] → 32 ≤ work.policy.config.maxWorkBytes ∧ 16 ≤ work.policy.config.maxWorkItems) :
    scanEntries work regionEnd fuel remaining previousTag count input
      = (.ok (count + entries.length), input.advance remaining) := by
  induction entries generalizing fuel remaining previousTag count input with
  | nil =>
    have hzero : remaining = 0 := by
      have hlength := congrArg List.length hflat
      rwa [List.length_take_of_le hrest, eq_comm] at hlength
    rw [hzero, scanEntries_zero, Parser.advance_zero]
    rfl
  | cons entry more ih =>
    obtain ⟨hentry, hrise, hmore⟩ := extensions_cons.mp hentries
    have hlength := congrArg List.length hflat
    rw [List.length_take_of_le hrest, List.flatten_cons, List.length_append] at hlength
    have hpos : 0 < headerExtensionPrefixBytes := by decide
    have hlead := hentry.length
    have hinside : entry.length ≤ remaining := by omega
    have htake : input.rest.take entry.length = entry := by
      have := congrArg (List.take entry.length) hflat
      rw [List.flatten_cons, List.take_left, List.take_take, Nat.min_eq_left hinside] at this
      exact this.symm
    have hdrop : more.flatten = (input.advance entry.length).rest.take (remaining - entry.length) := by
      have := congrArg (List.drop entry.length) hflat
      rw [List.flatten_cons, List.drop_left, List.drop_take] at this
      rw [this, Parser.advance_rest (by omega)]
    have hlies : Lies input remaining previousTag entry.length :=
      ⟨hinside, htake.symm ▸ hentry, htake.symm ▸ hrise⟩
    obtain ⟨hbytes, hitems⟩ := hquanta (List.cons_ne_nil _ _)
    obtain ⟨fuel, rfl⟩ := Nat.exists_eq_add_one_of_ne_zero (show fuel ≠ 0 by omega)
    rw [List.length_cons] at hmost ⊢
    have hleft : remaining - entry.length ≤ (input.advance entry.length).rest.length := by
      rw [Parser.advance_rest (by omega), List.length_drop]
      omega
    rw [scanEntries_passes hrest hlies (by omega) hfree hbytes hitems, htake,
      ih hmore hleft (by omega) hdrop (by omega) fun _ => ⟨hbytes, hitems⟩,
      Parser.advance_advance (by omega), Nat.add_sub_cancel' hinside, Nat.add_right_comm, Nat.add_assoc]

/-- What a region must meet before its extensions are looked at: the caller is in a transaction and has read
    the fixed part, the header keeps to its ceiling, and the whole region is there. -/
structure Admissible (policy : CodecLimits) (input : Parser) (extensionBytes fixedHeaderBytes origin : Nat) :
    Prop where
  placed : origin + input.total ≤ u64Max
  transaction : input.checkpoints.length ≠ 0
  fixed : 32 ≤ fixedHeaderBytes
  header : fixedHeaderBytes + extensionBytes ≤ policy.config.maxHeaderBytes
  region : extensionBytes ≤ input.rest.length

variable {extensionBytes fixedHeaderBytes origin : Nat}

theorem enterRegion_ok {u : Unit}
    (h : enterRegion work extensionBytes fixedHeaderBytes origin input = .ok u) :
    Admissible work.policy input extensionBytes fixedHeaderBytes origin := by
  unfold enterRegion at h
  simp only [bind_eq_ok, require_eq_ok, exists_const, Parser.remaining_eq] at h
  obtain ⟨hplaced, _, _, ⟨htransaction, hfixed⟩, _, hheader, hregion, _⟩ := h
  exact ⟨hplaced, htransaction, hfixed, hheader, hregion⟩

theorem enterRegion_succeeds (hfree : work.Unaborted)
    (h : Admissible work.policy input extensionBytes fixedHeaderBytes origin) :
    enterRegion work extensionBytes fixedHeaderBytes origin input = .ok () := by
  have hmost : work.policy.config.maxHeaderBytes ≤ 4096 := work.policy.getD_le 13
  have hheader := h.header
  have hword : fixedHeaderBytes + extensionBytes ≤ u64Max := by
    unfold u64Max
    omega
  unfold enterRegion
  simp only [bind_eq_ok, require_eq_ok, exists_const, Parser.remaining_eq]
  exact ⟨h.placed, (), Work.poll_ok hfree, ⟨h.transaction, h.fixed⟩, hword, hheader, h.region,
    Work.spend_ok hfree (Nat.zero_le _) (Work.quanta_pos work.policy.toLimits).2⟩

/-- The reader as a whole, when it gets through the region. -/
theorem scan_ok {total : Nat} {input' : Parser}
    (h : scanHeaderExtensionsInTransaction work input extensionBytes fixedHeaderBytes origin
      = (.ok total, input')) :
    Admissible work.policy input extensionBytes fixedHeaderBytes origin
    ∧ ∃ entries, Extensions 0 entries ∧ entries.flatten = input.rest.take extensionBytes
      ∧ total = 0 + entries.length ∧ total ≤ work.policy.maxExtensions
      ∧ input' = input.advance extensionBytes
      ∧ (entries ≠ [] → 32 ≤ work.policy.config.maxWorkBytes ∧ 16 ≤ work.policy.config.maxWorkItems) := by
  unfold scanHeaderExtensionsInTransaction at h
  split at h
  next => cases h
  next henter =>
    have hadmissible := enterRegion_ok henter
    refine ⟨hadmissible, ?_⟩
    dsimp only at h
    split at h
    next => cases h
    next count passed hscan =>
      split at h
      next => cases h
      next =>
        cases h
        exact scanEntries_ok hadmissible.region (Nat.le_refl _) (Nat.zero_le _) hscan

/-- **The grammar of header extensions.** What the reader accepts is a concatenation of extensions, no more
    than its ceiling, whose tags rise from zero; it answers how many there are and moves past the region. It
    accepts every such region, through any fragmentation, unless leave is refused: that takes an abort, or a
    quantum too small for one prefix. And whatever comes of it, it never passes the end of the region. -/
theorem header_extensions_grammar (work : Work ExtensionPlace) (input : Parser)
    (extensionBytes fixedHeaderBytes origin : Nat) :
    (∀ count input',
      scanHeaderExtensionsInTransaction work input extensionBytes fixedHeaderBytes origin
        = (.ok count, input') →
      Admissible work.policy input extensionBytes fixedHeaderBytes origin
      ∧ ∃ entries, Extensions 0 entries ∧ entries.flatten = input.rest.take extensionBytes
        ∧ entries.length = count ∧ count ≤ work.policy.maxExtensions
        ∧ input' = input.advance extensionBytes)
    ∧ (∀ entries, work.Unaborted → Admissible work.policy input extensionBytes fixedHeaderBytes origin →
      Extensions 0 entries → entries.flatten = input.rest.take extensionBytes →
      entries.length ≤ work.policy.maxExtensions →
      (scanHeaderExtensionsInTransaction work input extensionBytes fixedHeaderBytes origin
          = (.ok entries.length, input.advance extensionBytes)
        ↔ (entries ≠ [] →
          32 ≤ work.policy.config.maxWorkBytes ∧ 16 ≤ work.policy.config.maxWorkItems)))
    ∧ ∃ passed ≤ extensionBytes,
      (scanHeaderExtensionsInTransaction work input extensionBytes fixedHeaderBytes origin).2
        = input.advance passed := by
  refine ⟨fun count input' h => ?_, fun entries hfree hadmissible hentries hflat hmost => ⟨fun h => ?_, ?_⟩, ?_⟩
  · obtain ⟨hadmissible, entries, hentries, hflat, htotal, hmost, hinput, _⟩ := scan_ok h
    exact ⟨hadmissible, entries, hentries, hflat, by omega, hmost, hinput⟩
  · obtain ⟨_, others, _, hsame, _, _, _, hquanta⟩ := scan_ok h
    intro hsome
    refine hquanta ?_
    -- one extension at least makes the region longer than nothing
    rintro rfl
    obtain ⟨entry, more, rfl⟩ := List.exists_cons_of_ne_nil hsome
    have hlength := (hentries.each entry (List.mem_cons_self ..)).length
    have hnone := congrArg List.length (hflat.trans hsame.symm)
    rw [List.flatten_cons, List.length_append, hlength] at hnone
    have hpos : 0 < headerExtensionPrefixBytes := by decide
    rw [List.flatten_nil, List.length_nil] at hnone
    omega
  · intro hquanta
    unfold scanHeaderExtensionsInTransaction
    rw [enterRegion_succeeds hfree hadmissible]
    dsimp only
    rw [scanEntries_accepts hentries hadmissible.region (Nat.le_refl _) hflat (by omega) hfree hquanta]
    dsimp only
    rw [Work.poll_ok hfree, Nat.zero_add]
  · unfold scanHeaderExtensionsInTransaction
    split
    next => exact ⟨0, Nat.zero_le _, Parser.advance_zero.symm⟩
    next henter =>
      obtain ⟨passed, hle, hinput⟩ := @scanEntries_within work (origin + input.consumed + extensionBytes)
        extensionBytes extensionBytes 0 input 0 (enterRegion_ok henter).region
      refine ⟨passed, hle, ?_⟩
      rw [← hinput]
      dsimp only
      split
      next hscan => rw [hscan]
      next hscan =>
        rw [hscan]
        split
        next => rfl
        next => rfl

/-- Thirty-one bytes at a time, which no prefix fits. -/
def narrowWork : Work ExtensionPlace :=
  ⟨{ ceilings with config := { maxWorkBytes := 31 }, valid := by decide }, fun _ _ => false⟩

/-- One extension without a value, behind a checkpoint. -/
def oneExtension : Parser := (Parser.start ⟨[[1, 0, 0, 0, 0, 0, 0, 0]], by decide⟩).marked

/-- A region of the grammar that is refused for the quantum alone. -/
theorem narrow_quantum_refuses : ¬∀ (work : Work ExtensionPlace) input extensionBytes fixedHeaderBytes origin,
    work.Unaborted → Admissible work.policy input extensionBytes fixedHeaderBytes origin →
    ((∃ count input', scanHeaderExtensionsInTransaction work input extensionBytes fixedHeaderBytes origin
        = (.ok count, input'))
      ↔ ∃ entries, Extensions 0 entries ∧ entries.flatten = input.rest.take extensionBytes
        ∧ entries.length ≤ work.policy.maxExtensions) := by
  intro h
  have hentries : Extensions 0 [[1, 0, 0, 0, 0, 0, 0, 0]] :=
    extensions_cons.mpr ⟨⟨by decide, by decide⟩, by decide, Extensions.nil⟩
  obtain ⟨count, input', hscan⟩ := (h narrowWork oneExtension 8 32 0 (fun _ _ => rfl)
    ⟨by decide, by decide, by decide, by decide, by decide⟩).mpr ⟨_, hentries, by decide, by decide⟩
  obtain ⟨_, entries, _, hflat, _, _, _, hquanta⟩ := scan_ok hscan
  have hsome : entries ≠ [] := by
    rintro rfl
    revert hflat
    decide
  exact absurd (hquanta hsome).1 (by decide)

end Accept

end KwaqueStorage.Codec
