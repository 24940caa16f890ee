import KwaqueStorage.Codec.Work
import KwaqueStorage.Records.Encode

/-!
# Ordered maps

A map lies in a stored object as its count and its entries, in the order of their keys. What a key, a value
and the place of an entry are is the caller's: they are callbacks, which may fail or throw, ask for memory
and change what the caller owns.

The reader keeps the last pair it read and inserts it when the next one is read, so that a key out of order
is found before its pair is inserted. It works behind a checkpoint, which it gives up when it succeeds and
goes back to however else it ends.
-/

namespace KwaqueStorage.Codec

open Extent (u64Max)
open Layout Lib Records

/-! ## The callbacks -/

/-- What a callback ends with that does not succeed: an error, or an exception. -/
inductive MapFault
  | error (why : CodecError)
  | thrown
  deriving DecidableEq

/-- A callback that reads. It may move the cursor, and leaves the checkpoints alone. -/
structure Reader (Owner α : Type) where
  read : Parser → Owner → Except MapFault α × Parser × Owner
  keeps : ∀ p owner, (read p owner).2.1.buffer = p.buffer ∧ (read p owner).2.1.checkpoints = p.checkpoints

/-- The callbacks of a reader, and what it does itself with the allowance of memory: `decode_budget` is a
    part of what the caller owns. -/
structure MapCalls (Owner Key Value : Type) where
  key : Reader Owner Key
  value : Reader Owner Value
  insert : Key → Value → Owner → Except MapFault Unit × Owner
  less : Key → Key → Bool
  /-- `charge` is set. -/
  charged : Owner → Bool
  /-- The remainders are cut to the ceilings of the policy. -/
  clamp : Owner → Owner

/-- What bounds a map and the work of one entry. -/
structure MapBounds where
  maximumCount : Nat
  entryBytes : Nat
  entryItems : Nat
  deriving DecidableEq

/-- Where leave is asked for. -/
inductive MapPlace
  | start
  | count
  | entry (offset : Nat)
  | last
  | done
  deriving DecidableEq

/-- An error of a map, at a place. -/
def mapError (context : FieldContext) (offset : Nat) (code : Errc) : MapFault :=
  .error (context.error code offset)

/-- `collection_read_error`. -/
def collectionReadError (boundary : Records.InputBoundary) : MapFault → MapFault
  | .error why =>
    .error (if boundary = .complete ∧ why.code = .truncatedData then { why with code := .malformedData } else why)
  | .thrown => .thrown

/-! ## The reader -/

/-- A reader at work, with the pairs it has inserted. -/
structure MapReading (Owner Key Value : Type) where
  parser : Parser
  owner : Owner
  pending : Option (Key × Value) := none
  inserted : List (Key × Value) := []

section Read

variable {Owner Key Value : Type} (work : Work MapPlace) (calls : MapCalls Owner Key Value)
  (bounds : MapBounds) (context : FieldContext) (boundary : Records.InputBoundary)

/-- The pending pair is inserted, if there is one, and another takes its place. -/
def MapReading.insertPending (s : MapReading Owner Key Value) (next : Option (Key × Value)) :
    Except MapFault Unit × MapReading Owner Key Value :=
  match s.pending with
  | none => (.ok (), { s with pending := next })
  | some (key, value) =>
    match calls.insert key value s.owner with
    | (.error why, owner) => (.error why, { s with owner })
    | (.ok (), owner) =>
      (.ok (), { s with owner, pending := next, inserted := s.inserted ++ [(key, value)] })

/-- A key is out of order behind the pending pair. -/
def MapReading.unordered (s : MapReading Owner Key Value) (key : Key) : Bool :=
  s.pending.any fun last => !calls.less last.1 key

/-- One turn of the loop. -/
def MapReading.readEntry (s : MapReading Owner Key Value) :
    Except MapFault Unit × MapReading Owner Key Value :=
  let keyOffset := context.origin + s.parser.consumed
  match work.spend (.entry keyOffset) bounds.entryBytes bounds.entryItems (mapError context keyOffset) with
  | .error why => (.error why, s)
  | .ok () =>
    match calls.key.read s.parser s.owner with
    | (.error why, parser, owner) => (.error (collectionReadError boundary why), { s with parser, owner })
    | (.ok key, parser, owner) =>
      if s.unordered calls key then
        (.error (mapError context keyOffset .malformedData), { s with parser, owner })
      else
        match calls.value.read parser owner with
        | (.error why, parser, owner) => (.error (collectionReadError boundary why), { s with parser, owner })
        | (.ok value, parser, owner) =>
          MapReading.insertPending calls { s with parser, owner } (some (key, value))

/-- The loop over so many entries. -/
def MapReading.readEntries : Nat → MapReading Owner Key Value →
    Except MapFault Unit × MapReading Owner Key Value
  | 0, s => (.ok (), s)
  | count + 1, s =>
    match s.readEntry work calls bounds context boundary with
    | (.error why, s) => (.error why, s)
    | (.ok (), s) => readEntries count s

/-- The last pair, which no other follows. -/
def MapReading.finish (start : Nat) (s : MapReading Owner Key Value) :
    Except MapFault Unit × MapReading Owner Key Value :=
  if s.pending.isNone then (.ok (), s)
  else
    match work.spend .last bounds.entryBytes bounds.entryItems (mapError context start) with
    | .error why => (.error why, s)
    | .ok () => s.insertPending calls none

/-- What the guard does when the call is over. -/
def MapReading.leave (outcome : Except MapFault Nat) (s : MapReading Owner Key Value) :
    Except MapFault Nat × MapReading Owner Key Value :=
  match outcome with
  | .error why => (.error why, { s with parser := s.parser.rollback })
  | .ok count => (.ok count, { s with parser := s.parser.commit })

/-- What happens behind the checkpoint, once the count is known. -/
def MapReading.readCounted (start count : Nat) (s : MapReading Owner Key Value) :
    Except MapFault Nat × MapReading Owner Key Value :=
  match s.readEntries work calls bounds context boundary count with
  | (.error why, s) => (.error why, s)
  | (.ok (), s) =>
    match s.finish work calls bounds context start with
    | (.error why, s) => (.error why, s)
    | (.ok (), s) => ((work.poll .done true (mapError context start)).map fun _ => count, s)

/-- `read_ordered_map`. -/
def readOrderedMap (input : Parser) (owner : Owner) : Except MapFault Nat × MapReading Owner Key Value :=
  match readStart input context with
  | .error why => (.error (.error why), { parser := input, owner })
  | .ok start =>
    match (do work.poll .start false (mapError context start)
              require (calls.charged owner = true) (mapError context start .invalidArgument)) with
    | .error why => (.error why, { parser := input, owner })
    | .ok () =>
      let owner := calls.clamp owner
      match work.spend .count (min input.remaining 5) 6 (mapError context start) with
      | .error why => (.error why, { parser := input, owner })
      | .ok () =>
        match input.pushCheckpoint with
        | .error code => (.error (mapError context start code), { parser := input, owner })
        | .ok marked =>
          match readVaruint 32 marked context boundary with
          | .error why => MapReading.leave (.error (.error why)) { parser := marked, owner }
          | .ok (count, parser) =>
            if min bounds.maximumCount work.policy.config.maxObjectEntries < count then
              MapReading.leave (.error (mapError context start .resourceExhausted)) { parser, owner }
            else
              let ended := MapReading.readCounted work calls bounds context boundary start count
                { parser, owner }
              MapReading.leave ended.1 ended.2

end Read

/-! ## The writer -/

/-- A callback that writes. -/
abbrev Writer (Owner α : Type) : Type := Output → α → Owner → Except MapFault (Output × Owner)

section Write

variable {Owner Key Value : Type} (work : Work MapPlace) (bounds : MapBounds) (context : FieldContext)
  (writeKey : Writer Owner Key) (writeValue : Writer Owner Value) (less : Key → Key → Bool)

/-- The loop over the entries, behind the key of the last one. -/
def writeEntries (start : Nat) : Option Key → List (Key × Value) → Output × Owner →
    Except MapFault (Output × Owner)
  | _, [], at_ => .ok at_
  | previous, (key, value) :: rest, (output, owner) => do
    work.spend (.entry output.bytes.length) bounds.entryBytes bounds.entryItems (mapError context start)
    require (previous.all (less · key) = true)
      (mapError context (context.origin + output.bytes.length) .malformedData)
    let (output, owner) ← writeKey output key owner
    let (output, owner) ← writeValue output value owner
    writeEntries start (some key) rest (output, owner)

/-- The bytes a count takes, by its bits. -/
def countBytes (count : Nat) : Nat := max 1 (((if count = 0 then 0 else count.log2 + 1) + 6) / 7)

/-- `write_ordered_map`, into a builder that is finished or not, with so much room behind its tail. What a
    failed call leaves in the builder is for the caller to discard. -/
def writeOrderedMap (charged : Owner → Bool) (clamp : Owner → Owner) (finished : Bool) (tailCapacity : Nat)
    (entries : List (Key × Value)) (output : Output) (owner : Owner) : Except MapFault (Output × Owner) := do
  require (context.origin + output.bytes.length ≤ u64Max) (mapError context context.origin .invalidArgument)
  let start := context.origin + output.bytes.length
  work.poll .start false (mapError context start)
  require (charged owner = true) (mapError context start .invalidArgument)
  require (entries.length ≤ min bounds.maximumCount work.policy.config.maxObjectEntries)
    (mapError context start .resourceExhausted)
  require (start + countBytes entries.length ≤ u64Max) (mapError context start .invalidArgument)
  require (finished = false) (mapError context start .closed)
  require (countBytes entries.length ≤ tailCapacity) (mapError context start .resourceExhausted)
  work.spend .count (countBytes entries.length) 6 (mapError context start)
  let output ← (writeVaruint output entries.length context).mapError .error
  let written ← writeEntries work bounds context writeKey writeValue less start none entries
    (output, clamp owner)
  work.poll .done true (mapError context start)
  pure written

end Write

/-! ## However a reader ends -/

section Ends

variable {Owner Key Value : Type} {work : Work MapPlace} {calls : MapCalls Owner Key Value}
  {bounds : MapBounds} {context : FieldContext} {boundary : Records.InputBoundary}
  {s s' : MapReading Owner Key Value}

/-- The pairs a reader has inserted, and the one it holds back. -/
def MapReading.pairs (s : MapReading Owner Key Value) : List (Key × Value) := s.inserted ++ s.pending.toList

theorem insertPending_parsed {next : Option (Key × Value)} : (s.insertPending calls next).2.parser = s.parser := by
  unfold MapReading.insertPending
  split
  next => rfl
  next => split <;> rfl

theorem insertPending_ok {next : Option (Key × Value)} (h : s.insertPending calls next = (.ok (), s')) :
    s'.parser = s.parser ∧ s'.pending = next ∧ s'.inserted = s.pairs := by
  unfold MapReading.insertPending at h
  unfold MapReading.pairs
  split at h
  next hnone =>
    cases h
    rw [hnone, Option.toList_none, List.append_nil]
    exact ⟨rfl, rfl, rfl⟩
  next key value hsome =>
    split at h
    next => cases h
    next =>
      cases h
      rw [hsome]
      exact ⟨rfl, rfl, rfl⟩

/-- A reader behind the checkpoint of a parser. -/
def Behind (p : Parser) (s : MapReading Owner Key Value) : Prop :=
  s.parser.buffer = p.buffer ∧ s.parser.checkpoints = p.position :: p.checkpoints

theorem readEntry_behind {p : Parser} (h : Behind p s) :
    Behind p (s.readEntry work calls bounds context boundary).2 := by
  have hkey := calls.key.keeps s.parser s.owner
  unfold MapReading.readEntry
  dsimp only
  split
  next => exact h
  split
  next parser owner hread =>
    rw [hread] at hkey
    exact ⟨hkey.1.trans h.1, hkey.2.trans h.2⟩
  next key parser owner hread =>
    rw [hread] at hkey
    have hmoved : parser.buffer = p.buffer ∧ parser.checkpoints = p.position :: p.checkpoints :=
      ⟨hkey.1.trans h.1, hkey.2.trans h.2⟩
    have hvalue := calls.value.keeps parser owner
    split
    next => exact hmoved
    split
    next hread =>
      rw [hread] at hvalue
      exact ⟨hvalue.1.trans hmoved.1, hvalue.2.trans hmoved.2⟩
    next hread =>
      rw [hread] at hvalue
      unfold Behind
      rw [insertPending_parsed]
      exact ⟨hvalue.1.trans hmoved.1, hvalue.2.trans hmoved.2⟩

theorem readEntries_behind {p : Parser} {count : Nat} (h : Behind p s) :
    Behind p (s.readEntries work calls bounds context boundary count).2 := by
  induction count generalizing s with
  | zero => exact h
  | succ count ih =>
    have hentry := @readEntry_behind _ _ _ work calls bounds context boundary s p h
    rw [MapReading.readEntries]
    split
    next hread => rwa [hread] at hentry
    next hread =>
      rw [hread] at hentry
      exact ih hentry

theorem readCounted_behind {p : Parser} {start count : Nat} (h : Behind p s) :
    Behind p (s.readCounted work calls bounds context boundary start count).2 := by
  have hentries := @readEntries_behind _ _ _ work calls bounds context boundary s p count h
  have hfinish : ∀ {t : MapReading Owner Key Value}, Behind p t →
      Behind p (t.finish work calls bounds context start).2 := by
    intro t ht
    unfold MapReading.finish
    split
    next => exact ht
    split
    next => exact ht
    next =>
      unfold Behind
      rwa [insertPending_parsed]
  unfold MapReading.readCounted
  split
  next hread => rwa [hread] at hentries
  next t hread =>
    rw [hread] at hentries
    have hfinished := hfinish hentries
    split
    next hlast => rwa [hlast] at hfinished
    next hlast => rwa [hlast] at hfinished

theorem marked_behind {p : Parser} {count : Nat} {owner : Owner} :
    Behind p ({ parser := p.marked.advance count, owner } : MapReading Owner Key Value) :=
  ⟨Parser.advance_buffer, Parser.advance_checkpoints⟩

/-- What the reader does once it is behind its checkpoint. -/
theorem readOrderedMap_cases (input : Parser) (owner : Owner) :
    (∃ why, ∃ owner', readOrderedMap work calls bounds context boundary input owner
      = (.error why, { parser := input, owner := owner' }))
    ∨ ∃ count, count ≤ min bounds.maximumCount work.policy.config.maxObjectEntries
      ∧ input.Begins (spellVaruint count)
      ∧ readOrderedMap work calls bounds context boundary input owner
        = let ended := MapReading.readCounted work calls bounds context boundary
            (context.origin + input.consumed) count
            { parser := input.marked.advance (spellVaruint count).length, owner := calls.clamp owner }
          MapReading.leave ended.1 ended.2 := by
  have hback : ∀ {why n}, MapReading.leave (.error why)
      ({ parser := input.marked.advance n, owner := calls.clamp owner } : MapReading Owner Key Value)
      = (.error why, { parser := input, owner := calls.clamp owner }) := by
    intro why n
    have hrolled := Parser.rollback_eq (@marked_behind _ Key Value input n owner).1 marked_behind.2
    unfold MapReading.leave
    dsimp only
    rw [hrolled]
  unfold readOrderedMap
  split
  next => exact .inl ⟨_, _, rfl⟩
  next start hstart =>
    obtain rfl : start = context.origin + input.consumed := by
      unfold readStart at hstart
      simp only [bind_eq_ok, pure_eq_ok] at hstart
      obtain ⟨_, _, hstart⟩ := hstart
      exact hstart.symm
    split
    next => exact .inl ⟨_, _, rfl⟩
    dsimp only
    split
    next => exact .inl ⟨_, _, rfl⟩
    split
    next => exact .inl ⟨_, _, rfl⟩
    next marked hmarked =>
      obtain ⟨_, rfl⟩ := Parser.pushCheckpoint_eq_ok.mp hmarked
      split
      next =>
        rw [← @Parser.advance_zero input.marked, hback]
        exact .inl ⟨_, _, rfl⟩
      next count parser hcount =>
        obtain ⟨_, _, hbegins, rfl⟩ := (readVaruint_eq_ok (.inl rfl)).mp hcount
        split
        next =>
          rw [hback]
          exact .inl ⟨_, _, rfl⟩
        next hfew => exact .inr ⟨count, Nat.le_of_not_lt hfew, hbegins, rfl⟩

/-- **A reader that does not succeed** leaves its input as it was. -/
theorem readOrderedMap_failed {input : Parser} {owner : Owner} {why : MapFault}
    (h : readOrderedMap work calls bounds context boundary input owner = (.error why, s)) :
    s.parser = input := by
  rcases @readOrderedMap_cases _ _ _ work calls bounds context boundary input owner with
    ⟨other, owner', hfail⟩ | ⟨count, _, _, hread⟩
  · cases hfail.symm.trans h
    rfl
  · have hbehind := @readCounted_behind _ _ _ work calls bounds context boundary _ _
      (context.origin + input.consumed) count
      (@marked_behind _ Key Value input (spellVaruint count).length (calls.clamp owner))
    rw [hread] at h
    unfold MapReading.leave at h
    dsimp only at h
    split at h
    next =>
      cases h
      exact Parser.rollback_eq hbehind.1 hbehind.2
    next => cases h

/-- The pairs so far are in order, and one is held back as soon as there is one. -/
structure MapReading.Ordered (calls : MapCalls Owner Key Value) (s : MapReading Owner Key Value) : Prop where
  rise : s.pairs.IsChain fun a b => calls.less a.1 b.1 = true
  held : s.pending = none → s.inserted = []

theorem readEntry_ok (h : s.readEntry work calls bounds context boundary = (.ok (), s')) :
    ∃ key value, s'.pending = some (key, value) ∧ s'.inserted = s.pairs
      ∧ s.unordered calls key = false := by
  unfold MapReading.readEntry at h
  dsimp only at h
  split at h
  next => cases h
  split at h
  next => cases h
  next key parser owner hkey =>
    split at h
    next => cases h
    next hordered =>
      split at h
      next => cases h
      next value parser' owner' hvalue =>
        obtain ⟨_, hpending, hinserted⟩ := insertPending_ok h
        exact ⟨key, value, hpending, hinserted, Bool.eq_false_of_not_eq_true hordered⟩

/-- A pair behind those so far. -/
theorem MapReading.Ordered.next (h : s.Ordered calls) {key : Key} {value : Value}
    (hpending : s'.pending = some (key, value)) (hinserted : s'.inserted = s.pairs)
    (hordered : s.unordered calls key = false) : s'.Ordered calls ∧ s'.pairs = s.pairs ++ [(key, value)] := by
  have hpairs : s'.pairs = s.pairs ++ [(key, value)] := by
    show s'.inserted ++ s'.pending.toList = _
    rw [hinserted, hpending]
    rfl
  refine ⟨⟨?_, fun hnone => nomatch hnone.symm.trans hpending⟩, hpairs⟩
  rw [hpairs, List.isChain_append]
  refine ⟨h.rise, List.isChain_singleton _, ?_⟩
  intro last hlast next hnext
  obtain rfl : (key, value) = next := Option.some.inj hnext
  unfold MapReading.unordered at hordered
  unfold MapReading.pairs at hlast
  cases hp : s.pending with
  | none =>
    rw [h.held hp, hp] at hlast
    cases hlast
  | some held =>
    rw [hp, Option.toList_some, List.getLast?_concat] at hlast
    cases hlast
    rw [hp, Option.any_some] at hordered
    simpa using hordered

theorem readEntries_ok {count : Nat} (h : s.Ordered calls)
    (hread : s.readEntries work calls bounds context boundary count = (.ok (), s')) :
    s'.Ordered calls ∧ s'.pairs.length = s.pairs.length + count := by
  induction count generalizing s with
  | zero =>
    cases hread
    exact ⟨h, rfl⟩
  | succ count ih =>
    rw [MapReading.readEntries] at hread
    split at hread
    next => cases hread
    next t hentry =>
      obtain ⟨key, value, hpending, hinserted, hordered⟩ := readEntry_ok hentry
      obtain ⟨hnext, hpairs⟩ := h.next hpending hinserted hordered
      obtain ⟨hlast, hlength⟩ := ih hnext hread
      rw [hpairs, List.length_append, List.length_singleton] at hlength
      exact ⟨hlast, by omega⟩

theorem finish_ok {start : Nat} (h : s.finish work calls bounds context start = (.ok (), s')) :
    s'.parser = s.parser ∧ s'.inserted = s.pairs := by
  unfold MapReading.finish at h
  split at h
  next hnone =>
    cases h
    unfold MapReading.pairs
    rw [Option.isNone_iff_eq_none.mp hnone, Option.toList_none, List.append_nil]
    exact ⟨rfl, rfl⟩
  next =>
    split at h
    next => cases h
    next =>
      obtain ⟨hparser, _, hinserted⟩ := insertPending_ok h
      exact ⟨hparser, hinserted⟩

theorem readCounted_ok {start count counted : Nat} (h : s.Ordered calls)
    (hread : s.readCounted work calls bounds context boundary start count = (.ok counted, s')) :
    counted = count ∧ s'.inserted.length = s.pairs.length + count
      ∧ s'.inserted.IsChain fun a b => calls.less a.1 b.1 = true := by
  unfold MapReading.readCounted at hread
  split at hread
  next => cases hread
  next t hentries =>
    obtain ⟨hordered, hlength⟩ := readEntries_ok h hentries
    split at hread
    next => cases hread
    next t' hlast =>
      obtain ⟨_, hinserted⟩ := finish_ok hlast
      cases hpoll : work.poll .done true (mapError context start) with
      | error why =>
        rw [hpoll] at hread
        cases hread
      | ok _ =>
        rw [hpoll] at hread
        cases hread
        rw [hinserted]
        exact ⟨rfl, hlength, hordered.rise⟩

/-- **What a reader accepts** is in order, and as much as its count says. -/
theorem readOrderedMap_ok {input : Parser} {owner : Owner} {count : Nat}
    (h : readOrderedMap work calls bounds context boundary input owner = (.ok count, s)) :
    s.inserted.length = count ∧ (s.inserted.IsChain fun a b => calls.less a.1 b.1 = true)
      ∧ input.Begins (spellVaruint count) ∧ s.parser.buffer = input.buffer
      ∧ s.parser.checkpoints = input.checkpoints := by
  rcases @readOrderedMap_cases _ _ _ work calls bounds context boundary input owner with
    ⟨other, owner', hfail⟩ | ⟨counted, _, hbegins, hread⟩
  · cases hfail.symm.trans h
  · have hbehind := @readCounted_behind _ _ _ work calls bounds context boundary _ _
      (context.origin + input.consumed) counted
      (@marked_behind _ Key Value input (spellVaruint counted).length (calls.clamp owner))
    rw [hread] at h
    dsimp only at h
    rcases hended : MapReading.readCounted work calls bounds context boundary
      (context.origin + input.consumed) counted
      { parser := input.marked.advance (spellVaruint counted).length, owner := calls.clamp owner }
      with ⟨why | answer, t⟩
    · rw [hended] at h
      cases h
    · rw [hended] at h hbehind
      cases h
      obtain ⟨rfl, hlength, hrise⟩ := readCounted_ok ⟨.nil, fun _ => rfl⟩ hended
      obtain ⟨hbuffer, _, hkept⟩ := Parser.commit_fields hbehind.2
      exact ⟨hlength.trans (Nat.zero_add _), hrise, hbegins, hbuffer.trans hbehind.1, hkept⟩

end Ends

/-! ## What is written is read -/

section RoundTrip

variable {Owner Key Value : Type} {work : Work MapPlace} {calls : MapCalls Owner Key Value}
  {bounds : MapBounds} {context : FieldContext} {boundary : Records.InputBoundary}
  {s : MapReading Owner Key Value} {spellKey : Key → List UInt8} {spellValue : Value → List UInt8}
  {writeKey : Writer Owner Key} {writeValue : Writer Owner Value}

/-- A codec that round trips: what is written is a spelling of its own, which is read back whatever follows. -/
structure RoundTrips {α : Type} (spell : α → List UInt8) (write : Writer Owner α) (reader : Reader Owner α) :
    Prop where
  written : ∀ output a owner output' owner', write output a owner = .ok (output', owner') →
    output' = output.push (spell a)
  read : ∀ p a owner more, p.rest = spell a ++ more →
    ∃ owner', reader.read p owner = (.ok a, p.advance (spell a).length, owner')

/-- The entries of a map, one behind the other. -/
def spellEntries (spellKey : Key → List UInt8) (spellValue : Value → List UInt8) (entries : List (Key × Value)) :
    List UInt8 := entries.flatMap fun entry => spellKey entry.1 ++ spellValue entry.2

/-- What is written, and that it was in order. -/
theorem writeEntries_ok (hkey : RoundTrips spellKey writeKey calls.key)
    (hvalue : RoundTrips spellValue writeValue calls.value) {start : Nat} {previous : Option Key}
    {entries : List (Key × Value)} {output output' : Output} {owner owner' : Owner}
    (h : writeEntries work bounds context writeKey writeValue calls.less start previous entries (output, owner)
      = .ok (output', owner')) :
    output' = output.push (spellEntries spellKey spellValue entries)
      ∧ (previous.toList ++ entries.map Prod.fst).IsChain (fun a b => calls.less a b = true)
      ∧ (entries ≠ [] → bounds.entryBytes ≤ work.policy.config.maxWorkBytes
        ∧ max bounds.entryItems 1 ≤ work.policy.config.maxWorkItems) := by
  induction entries generalizing previous output owner with
  | nil =>
    cases h
    refine ⟨?_, ?_, nofun⟩
    · unfold Output.push spellEntries
      rw [List.flatMap_nil, List.append_nil]
    · cases previous with
      | none => exact .nil
      | some key => exact .singleton _
  | cons entry rest ih =>
    rw [writeEntries] at h
    simp only [bind_eq_ok, require_eq_ok, exists_const, Prod.exists] at h
    obtain ⟨_, hspend, hless, keyed, owned, hwriteKey, valued, owned', hwriteValue, hrest⟩ := h
    obtain rfl := hkey.written _ _ _ _ _ hwriteKey
    obtain rfl := hvalue.written _ _ _ _ _ hwriteValue
    obtain ⟨rfl, hchain, _⟩ := ih hrest
    obtain ⟨hbytes, hitems⟩ := Work.fits_of_spend hspend
    have hone := (Work.quanta_pos work.policy.toLimits).2
    refine ⟨?_, ?_, fun _ => ⟨hbytes, by omega⟩⟩
    · unfold Output.push spellEntries
      simp only [List.flatMap_cons, List.append_assoc]
    · cases previous with
      | none => exact hchain
      | some last =>
        rw [Option.all_some] at hless
        exact List.isChain_cons_cons.mpr ⟨hless, hchain⟩

/-- The reader's leave for one entry. -/
structure EntryLeave (work : Work MapPlace) (calls : MapCalls Owner Key Value) (bounds : MapBounds) : Prop where
  free : work.Unaborted
  bytes : bounds.entryBytes ≤ work.policy.config.maxWorkBytes
  items : max bounds.entryItems 1 ≤ work.policy.config.maxWorkItems
  inserts : ∀ key value owner, (calls.insert key value owner).1 = .ok ()

theorem insertPending_inserts (hinserts : ∀ key value owner, (calls.insert key value owner).1 = .ok ())
    (next : Option (Key × Value)) : ∃ s', s.insertPending calls next = (.ok (), s') := by
  unfold MapReading.insertPending
  split
  next => exact ⟨_, rfl⟩
  next key value _ =>
    have hok := hinserts key value s.owner
    split
    next hfail =>
      rw [hfail] at hok
      cases hok
    next => exact ⟨_, rfl⟩

theorem readEntry_reads (hkey : RoundTrips spellKey writeKey calls.key)
    (hvalue : RoundTrips spellValue writeValue calls.value) (hleave : EntryLeave work calls bounds)
    {entry : Key × Value} {more : List UInt8}
    (hrest : s.parser.rest = spellKey entry.1 ++ (spellValue entry.2 ++ more))
    (hordered : s.unordered calls entry.1 = false) :
    ∃ s', s.readEntry work calls bounds context boundary = (.ok (), s') ∧ s'.pending = some entry
      ∧ s'.inserted = s.pairs
      ∧ s'.parser = s.parser.advance (spellKey entry.1 ++ spellValue entry.2).length := by
  obtain ⟨owner, hreadKey⟩ := hkey.read s.parser entry.1 s.owner _ hrest
  obtain ⟨hbegins, hbehind⟩ := Parser.rest_eq_append.mp hrest
  obtain ⟨owner', hreadValue⟩ := hvalue.read _ entry.2 owner _ hbehind
  obtain ⟨s', hs'⟩ := @insertPending_inserts _ _ _ calls
    { s with parser := (s.parser.advance (spellKey entry.1).length).advance (spellValue entry.2).length,
             owner := owner' } hleave.inserts (some entry)
  obtain ⟨hparser, hpending, hinserted⟩ := insertPending_ok hs'
  refine ⟨s', ?_, hpending, hinserted, ?_⟩
  · unfold MapReading.readEntry
    dsimp only
    rw [Work.spend_ok hleave.free hleave.bytes hleave.items]
    dsimp only
    rw [hreadKey]
    dsimp only
    rw [hordered, if_neg Bool.false_ne_true, hreadValue]
    exact hs'
  · have hlength := congrArg List.length hrest
    rw [List.length_append, List.length_append] at hlength
    rw [hparser, List.length_append]
    exact Parser.advance_advance (by omega)

theorem readEntries_reads (hkey : RoundTrips spellKey writeKey calls.key)
    (hvalue : RoundTrips spellValue writeValue calls.value) {entries : List (Key × Value)} {more : List UInt8}
    (hleave : entries ≠ [] → EntryLeave work calls bounds)
    (hrest : s.parser.rest = spellEntries spellKey spellValue entries ++ more)
    (hchain : ((s.pending.map Prod.fst).toList ++ entries.map Prod.fst).IsChain
      fun a b => calls.less a b = true) :
    ∃ s', s.readEntries work calls bounds context boundary entries.length = (.ok (), s')
      ∧ s'.pairs = s.pairs ++ entries
      ∧ s'.parser = s.parser.advance (spellEntries spellKey spellValue entries).length := by
  induction entries generalizing s with
  | nil =>
    refine ⟨s, rfl, (List.append_nil _).symm, ?_⟩
    exact Parser.advance_zero.symm
  | cons entry rest ih =>
    have hspell : spellEntries spellKey spellValue (entry :: rest)
        = (spellKey entry.1 ++ spellValue entry.2) ++ spellEntries spellKey spellValue rest :=
      List.flatMap_cons
    have hordered : s.unordered calls entry.1 = false := by
      unfold MapReading.unordered
      cases hp : s.pending with
      | none => rfl
      | some held =>
        rw [hp] at hchain
        rw [Option.any_some, (List.isChain_cons_cons.mp hchain).1]
        rfl
    rw [hspell, List.append_assoc] at hrest
    obtain ⟨t, hread, hpending, hinserted, hparser⟩ := readEntry_reads hkey hvalue
      (hleave (List.cons_ne_nil _ _)) (hrest.trans (List.append_assoc _ _ _)) hordered
    obtain ⟨hbegins, hbehind⟩ := Parser.rest_eq_append.mp hrest
    have hnext : ((t.pending.map Prod.fst).toList ++ rest.map Prod.fst).IsChain
        fun a b => calls.less a b = true := by
      rw [hpending]
      cases hp : s.pending with
      | none =>
        rw [hp] at hchain
        exact hchain
      | some held =>
        rw [hp] at hchain
        exact (List.isChain_cons_cons.mp hchain).2
    obtain ⟨s', hentries, hpairs, hmoved⟩ :=
      ih (fun _ => hleave (List.cons_ne_nil _ _)) (hparser ▸ hbehind) hnext
    refine ⟨s', ?_, ?_, ?_⟩
    · rw [List.length_cons, MapReading.readEntries, hread]
      exact hentries
    · rw [hpairs]
      show (t.inserted ++ t.pending.toList) ++ rest = _
      rw [hinserted, hpending, Option.toList_some, List.append_assoc]
      rfl
    · have hlength := congrArg List.length hrest
      simp only [List.length_append] at hlength
      simp only [hmoved, hparser, hspell, List.length_append]
      exact Parser.advance_advance (by omega)

theorem finish_finishes {start : Nat} (hleave : s.pending ≠ none → EntryLeave work calls bounds) :
    ∃ s', s.finish work calls bounds context start = (.ok (), s') := by
  unfold MapReading.finish
  split
  next => exact ⟨s, rfl⟩
  next hsome =>
    have hentry := hleave fun hnone => hsome (by rw [hnone]; rfl)
    rw [Work.spend_ok hentry.free hentry.bytes hentry.items]
    exact insertPending_inserts hentry.inserts none

end RoundTrip

/-- **The codec of ordered maps.** However a read ends that does not succeed, by an error, an abort or an
    exception of a callback, its input is as it was. What a read accepts is in order, and as many pairs as
    the count at its front. And with codecs that round trip, what was written is read back, pair for pair,
    by a read that moves past its bytes alone, unless leave or room is refused. -/
theorem ordered_map_codec {Owner Key Value : Type} (work : Work MapPlace) (calls : MapCalls Owner Key Value)
    (bounds : MapBounds) (context : FieldContext) (boundary : Records.InputBoundary) :
    (∀ input owner why s, readOrderedMap work calls bounds context boundary input owner = (.error why, s) →
      s.parser = input)
    ∧ (∀ input owner count s, readOrderedMap work calls bounds context boundary input owner = (.ok count, s) →
      s.inserted.length = count ∧ (s.inserted.IsChain fun a b => calls.less a.1 b.1 = true)
      ∧ input.Begins (spellVaruint count) ∧ s.parser.buffer = input.buffer
      ∧ s.parser.checkpoints = input.checkpoints)
    ∧ (∀ (spellKey : Key → List UInt8) (spellValue : Value → List UInt8) writeKey writeValue writing finished
        tailCapacity entries output output' owner owner',
      RoundTrips spellKey writeKey calls.key → RoundTrips spellValue writeValue calls.value →
      writeOrderedMap work bounds writing writeKey writeValue calls.less calls.charged calls.clamp finished
        tailCapacity entries output owner = .ok (output', owner') →
      ∃ octets, output' = output.push octets
        ∧ ∀ input reading more, input.rest = octets ++ more → context.origin + input.total ≤ u64Max →
          input.checkpoints.length ≠ maxParserCheckpoints → calls.charged reading = true →
          min input.rest.length 5 ≤ work.policy.config.maxWorkBytes → work.Unaborted →
          (∀ key value owner, (calls.insert key value owner).1 = .ok ()) →
          ∃ s, readOrderedMap work calls bounds context boundary input reading = (.ok entries.length, s)
            ∧ s.inserted = entries ∧ s.parser = input.advance octets.length) := by
  refine ⟨fun _ _ _ _ => readOrderedMap_failed, fun _ _ _ _ => readOrderedMap_ok, ?_⟩
  intro spellKey spellValue writeKey writeValue writing finished tailCapacity entries output output' owner owner'
    hkey hvalue hwritten
  unfold writeOrderedMap at hwritten
  simp only [bind_eq_ok, require_eq_ok, exists_const, mapError_eq_ok, Prod.exists, pure_eq_ok] at hwritten
  obtain ⟨_, _, _, _, hcount, _, _, _, _, hspend, counted, hvaruint, written, owned, hentries, _, _, hlast⟩ :=
    hwritten
  obtain ⟨rfl, rfl⟩ := Prod.mk.inj hlast
  obtain rfl := appendInteger_bytes hvaruint
  obtain ⟨rfl, hchain, hquanta⟩ := writeEntries_ok hkey hvalue hentries
  obtain ⟨_, hitems⟩ := Work.fits_of_spend hspend
  have hmost := work.policy.maxObjectEntries_le
  refine ⟨spellVaruint entries.length ++ spellEntries spellKey spellValue entries, ?_, ?_⟩
  · unfold Output.push
    simp only [List.append_assoc]
  intro input reading more hrest hfits hroom hcharged hbytes hfree hinserts
  have hstart : readStart input context = .ok (context.origin + input.consumed) := by
    unfold readStart
    rw [(require_eq_ok (u := ())).mpr hfits]
    rfl
  have hgate : (do work.poll .start false (mapError context (context.origin + input.consumed))
                   require (calls.charged reading = true)
                     (mapError context (context.origin + input.consumed) .invalidArgument)) = .ok () := by
    rw [Work.poll_ok hfree, (require_eq_ok (u := ())).mpr hcharged]
    rfl
  obtain ⟨hbegins, hbehind⟩ := (@Parser.rest_eq_append input.marked _ _).mp
    (hrest.trans (List.append_assoc _ _ _))
  have hvaruint : readVaruint 32 input.marked context boundary
      = .ok (entries.length, input.marked.advance (spellVaruint entries.length).length) :=
    (readVaruint_eq_ok (.inl rfl)).mpr ⟨hfits, by omega, hbegins, rfl⟩
  have hleave : entries ≠ [] → EntryLeave work calls bounds :=
    fun hsome => ⟨hfree, (hquanta hsome).1, (hquanta hsome).2, hinserts⟩
  obtain ⟨t, hread, hpairs, hmoved⟩ := @readEntries_reads _ _ _ work calls bounds context boundary
    { parser := input.marked.advance (spellVaruint entries.length).length, owner := calls.clamp reading }
    spellKey spellValue writeKey writeValue hkey hvalue entries more hleave hbehind hchain
  obtain ⟨t', hfinish⟩ := @finish_finishes _ _ _ work calls bounds context t
    (context.origin + input.consumed) (fun hpending => hleave fun hnone => by
      rw [hnone] at hread
      cases hread
      exact hpending rfl)
  obtain ⟨hparser, hinserted⟩ := finish_ok hfinish
  have hlength := congrArg List.length hrest
  simp only [List.length_append] at hlength
  refine ⟨{ t' with parser := t'.parser.commit }, ?_, hinserted.trans hpairs, ?_⟩
  · unfold readOrderedMap
    rw [hstart]
    dsimp only
    rw [hgate]
    dsimp only
    rw [Work.spend_ok hfree (Parser.remaining_eq input ▸ hbytes) hitems,
      Parser.pushCheckpoint_eq_ok.mpr ⟨hroom, rfl⟩]
    dsimp only
    rw [hvaruint]
    dsimp only
    rw [if_neg (Nat.not_lt.mpr hcount)]
    unfold MapReading.readCounted
    rw [hread]
    dsimp only
    rw [hfinish]
    dsimp only
    rw [Work.poll_ok hfree]
    rfl
  · show t'.parser.commit = _
    have hall : (spellVaruint entries.length).length + (spellEntries spellKey spellValue entries).length
        ≤ input.rest.length := by omega
    rw [hparser, hmoved, @Parser.advance_advance input.marked _ _ hall, Parser.commit_marked_advance, List.length_append]

/-- Maps of single bytes, without values. -/
def byteCalls : MapCalls Unit UInt8 Unit where
  key := {
    read := fun p owner => match p.peek 1 with
      | [] => (.error .thrown, p, owner)
      | octet :: _ => (.ok octet, p.advance 1, owner)
    keeps := by
      intro p owner
      cases p.peek 1 with
      | nil => exact ⟨rfl, rfl⟩
      | cons octet rest => exact ⟨Parser.advance_buffer, Parser.advance_checkpoints⟩ }
  value := { read := fun p owner => (.ok (), p, owner), keeps := fun _ _ => ⟨rfl, rfl⟩ }
  insert _ _ owner := (.ok (), owner)
  less := fun a b => decide (a < b)
  charged _ := true
  clamp owner := owner

/-- One byte at a time. -/
def byteWork : Work MapPlace :=
  ⟨{ ceilings with config := { maxWorkBytes := 1 }, valid := one_byte_valid }, fun _ _ => false⟩

/-- A byte is written as itself. -/
def writeByte : Writer Unit UInt8 := fun output key owner => .ok (output.push [key], owner)

theorem writeByte_roundTrips : RoundTrips (fun key => [key]) writeByte byteCalls.key := by
  refine ⟨?_, ?_⟩
  · intro output a owner output' owner' h
    cases h
    rfl
  · intro p a owner more hrest
    refine ⟨owner, ?_⟩
    show (match p.peek 1 with | [] => _ | octet :: _ => _) = _
    rw [Parser.peek_eq, hrest]
    rfl

/-- A map that is written with a quantum of one byte is not read with it: the reader asks for as many bytes
    as a count may take. -/
theorem written_map_refused :
    RoundTrips (fun key => [key]) writeByte byteCalls.key
    ∧ (∃ output', writeOrderedMap byteWork ⟨1, 1, 1⟩ ⟨0, .headerCount⟩ writeByte
        (fun output _ owner => .ok (output, owner)) byteCalls.less byteCalls.charged byteCalls.clamp false 8
        [(7, ())] ⟨[], 64⟩ () = .ok (output', ()) ∧ output'.bytes = [1, 7])
    ∧ (readOrderedMap byteWork byteCalls ⟨1, 1, 1⟩ ⟨0, .headerCount⟩ .complete
        (.start ⟨[[1, 7]], by decide⟩) ()).1 = .error (mapError ⟨0, .headerCount⟩ 0 .resourceExhausted) :=
  ⟨writeByte_roundTrips, ⟨⟨[1, 7], 64⟩, by decide, rfl⟩, by decide⟩

end KwaqueStorage.Codec
