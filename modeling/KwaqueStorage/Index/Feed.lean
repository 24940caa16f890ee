import KwaqueStorage.Index.Sparse

/-!
# Feeding a sparse index

An index that is fed a segment's blocks in file order follows one rule, `Stride.anchors`: the
anchors a stride chooses of a list of blocks when nothing runs out. This file says what an index
fed by a verification walk holds (`Keeps.visits`) and what one holds that a segment's writer
fed, between admissions and barriers (`Live.run_keeps`).

Both are one invariant, `Keeps`: the entries the index has, followed by those the rule chooses
of the blocks left, are the anchors of the whole list.
-/

namespace KwaqueStorage.Index

/-! ## The rule -/

namespace Stride

/-- Whether a stride chooses a block: the last chosen block's bytes and records begin at
    `last`, and `since` blocks were offered after it, this one included. -/
def takes (stride : Stride) (last : Option (Nat × Nat)) (since : Nat) (block : Coverage) : Bool :=
  match last with
  | none => true
  | some (bytes, records) =>
    !(decide (block.bytes.begin_ - bytes < stride.bytes)
      && (decide (stride.records = 0)
        || decide (block.physical.begin_ - records < stride.records))
      && decide (since < maximumAnchorBlocks))

/-- The anchors a stride chooses of the blocks that follow. -/
def anchorsFrom (stride : Stride) : Option (Nat × Nat) → Nat → List Coverage → List Entry
  | _, _, [] => []
  | last, since, block :: rest =>
    if stride.takes last (since + 1) block then
      ⟨block.logical.begin_, block.bytes.begin_⟩
        :: stride.anchorsFrom (some (block.bytes.begin_, block.physical.begin_)) 0 rest
    else stride.anchorsFrom last (since + 1) rest

/-- The anchors a stride chooses of a segment's blocks. -/
def anchors (stride : Stride) (blocks : List Coverage) : List Entry :=
  stride.anchorsFrom none 0 blocks

end Stride

/-! ## Extents -/

/-- A block as an append places it: it goes on from the logical slot, the record and at or
    after the byte given, each of its slots holds a record and there is at least one. -/
structure Appends (logical physical bytes : Nat) (block : Coverage) : Prop where
  logical : block.logical.begin_ = logical
  physical : block.physical.begin_ = physical
  bytes : bytes ≤ block.bytes.begin_
  size : block.bytes.begin_ + smallestBlock ≤ block.bytes.end_
  dense : block.logical.begin_ + (block.physical.end_ - block.physical.begin_) = block.logical.end_
  records : block.physical.begin_ < block.physical.end_
  offset : block.logical.end_ ≤ noOffset

/-- Blocks appended one after another. -/
def Appended : Nat → Nat → Nat → List Coverage → Prop
  | _, _, _, [] => True
  | logical, physical, bytes, block :: rest =>
    Appends logical physical bytes block
      ∧ Appended block.logical.end_ block.physical.end_ block.bytes.end_ rest

/-- A sealed extent: the blocks of a segment from its data start to its sealed end. -/
structure Extent where
  blocks : List Coverage
  origin : Nat
  dataStart : Nat
  end_ : Nat
  appended : Appended origin 0 dataStart blocks
  within : ∀ block ∈ blocks, block.bytes.end_ ≤ end_

namespace Extent

/-- Its coverage, as its seal records it. -/
def coverage (e : Extent) : Coverage where
  logical := ⟨e.origin, (e.blocks.getLast?.map (·.logical.end_)).getD e.origin⟩
  physical := ⟨0, (e.blocks.getLast?.map (·.physical.end_)).getD 0⟩
  bytes := ⟨e.dataStart, e.end_⟩

end Extent

/-! ## Feeding an index -/

namespace SparseIndex

/-- Where the last chosen block's bytes and records begin. -/
def last (i : SparseIndex) : Option (Nat × Nat) :=
  if i.entries = [] then none else some (i.chosenBytes, i.chosenRecords)

/-- An index that was offered the blocks before a place, and met nothing out of order. -/
structure Offered (i : SparseIndex) (logical physical bytes : Nat) : Prop where
  unfrozen : i.frozen = false
  fired : i.fired = []
  offered : i.offeredEnd ≤ bytes
  records : i.entries ≠ [] → i.chosenRecords ≤ physical
  anchors : ∀ e ∈ i.entries.getLast?, e.anchor < logical

/-- There is room for one more entry. -/
def Room (i : SparseIndex) (allocates : Bool) : Prop :=
  i.chosen ≠ i.capacity ∧ i.chosen ≠ i.admitted
    ∧ (i.chosen / pageEntries = i.chunks → allocates = true)

/-- The index after a block that was offered and not chosen. -/
def pass (i : SparseIndex) (block : Coverage) : SparseIndex :=
  { i with promised := i.promised - 1, offeredEnd := block.bytes.end_, since := i.since + 1 }

/-- The index after a block that was chosen. -/
def take (i : SparseIndex) (block : Coverage) : SparseIndex :=
  { i.pass block with
    chunks := if i.chosen / pageEntries = i.chunks then i.chunks + 1 else i.chunks
    entries := i.entries ++ [⟨block.logical.begin_, block.bytes.begin_⟩]
    chosenBytes := block.bytes.begin_
    chosenRecords := block.physical.begin_
    since := 0 }

variable {i : SparseIndex} {logical physical bytes : Nat} {block : Coverage} {allocates : Bool}

theorem takes_last : i.stride.takes i.last (i.since + 1) block = !(i.pass block).passesOver block := by
  simp only [last, Stride.takes, passesOver, pass, chosen]
  by_cases h : i.entries = []
  · simp [h]
  · simp [h]
    rfl

@[simp] theorem check_true (id : IndexInvariant) : i.check id true = i := rfl

theorem offer_eq (ho : i.Offered logical physical bytes)
    (ha : Appends logical physical bytes block) : i.offer block = i.pass block := by
  have hbytes : decide (i.offeredEnd ≤ block.bytes.begin_) = true :=
    decide_eq_true (ho.offered.trans ha.bytes)
  have hfrozen : (!i.frozen) = true := by simp [ho.unfrozen]
  simp only [offer, hfrozen, check_true]
  rw [hbytes]
  rfl

/-- A block in its place fires nothing, and is chosen when the stride takes it. -/
theorem written_eq (ho : i.Offered logical physical bytes)
    (ha : Appends logical physical bytes block) :
    i.written block allocates
      = if i.stride.takes i.last (i.since + 1) block then (i.pass block).choose block allocates
        else (false, i.pass block) := by
  have hoffset : block.logical.begin_ < noOffset := by
    have := ha.dense
    have := ha.records
    have := ha.offset
    omega
  have hempty : block.logical.isEmpty = false := by
    have := ha.dense
    have := ha.records
    simp only [Span.isEmpty, decide_eq_false_iff_not]
    omega
  have hrecords : (decide ((i.pass block).chosen = 0)
      || decide ((i.pass block).chosenRecords ≤ block.physical.begin_)) = true := by
    by_cases h : i.entries = []
    · simp [pass, chosen, h]
    · simp [pass, ha.physical, ho.records h]
  rw [takes_last]
  unfold written
  simp only [offer_eq ho ha, hempty, hoffset.ne, hrecords, check_true, decide_false,
    Bool.or_self, Bool.false_eq_true, if_false]
  cases (i.pass block).passesOver block <;> rfl

/-- With room the chosen block is the next entry. -/
theorem choose_of_room (ho : i.Offered logical physical bytes)
    (ha : Appends logical physical bytes block) (hroom : i.Room allocates) :
    (i.pass block).choose block allocates = (true, i.take block) := by
  have hlast : ((i.pass block).entries.getLast?.all
      fun e => decide (e.anchor < block.logical.begin_)) = true := by
    simp only [pass]
    cases h : i.entries.getLast? with
    | none => rfl
    | some e => simpa [ha.logical] using ho.anchors e (by simp [h])
  obtain ⟨hcap, hadm, hmem⟩ := hroom
  unfold choose
  simp only [hlast, check_true]
  rw [if_neg, if_neg]
  · rfl
  · rintro ⟨h, hno⟩
    rw [hmem h] at hno
    cases hno
  · rintro (h | h)
    · exact hcap h
    · exact hadm h

/-- Without, the block is passed over and counted. -/
theorem choose_of_full (ho : i.Offered logical physical bytes)
    (ha : Appends logical physical bytes block) (hfull : ¬ i.Room allocates) :
    (i.pass block).choose block allocates
      = (false, { i.pass block with skipped := i.skipped + 1 }) := by
  have hlast : ((i.pass block).entries.getLast?.all
      fun e => decide (e.anchor < block.logical.begin_)) = true := by
    simp only [pass]
    cases h : i.entries.getLast? with
    | none => rfl
    | some e => simpa [ha.logical] using ho.anchors e (by simp [h])
  unfold choose
  simp only [hlast, check_true]
  split
  · rfl
  · next hno =>
    rw [if_pos]
    · rfl
    · rw [not_or] at hno
      by_contra h
      refine hfull ⟨hno.1, hno.2, ?_⟩
      intro hc
      by_contra hm
      exact h ⟨hc, by simpa using hm⟩

theorem Offered.pass (ho : i.Offered logical physical bytes)
    (ha : Appends logical physical bytes block) :
    (i.pass block).Offered block.logical.end_ block.physical.end_ block.bytes.end_ where
  unfrozen := ho.unfrozen
  fired := ho.fired
  offered := le_rfl
  records h := (ho.records h).trans (ha.physical ▸ ha.records.le)
  anchors e he := by
    have := ho.anchors e he
    have := ha.logical
    have := ha.dense
    omega

theorem Offered.take (ho : i.Offered logical physical bytes)
    (ha : Appends logical physical bytes block) :
    (i.take block).Offered block.logical.end_ block.physical.end_ block.bytes.end_ where
  unfrozen := ho.unfrozen
  fired := ho.fired
  offered := le_rfl
  records _ := ha.records.le
  anchors e he := by
    simp only [SparseIndex.take, List.getLast?_append, List.getLast?_singleton, Option.some_or,
      Option.mem_def, Option.some.injEq] at he
    have := ha.dense
    have := ha.records
    subst he
    simp only
    omega

/-! ## What an index fed in order holds -/

/-- An index that has kept every anchor the stride chose so far: with those of the blocks left
    it will hold `target`. The blocks lie below `limit`. -/
structure Keeps (target : List Entry) (limit : Nat) (i : SparseIndex) (left : List Coverage) :
    Prop where
  place : ∃ logical physical bytes, i.Offered logical physical bytes
    ∧ Appended logical physical bytes left
  within : ∀ block ∈ left, block.bytes.end_ ≤ limit
  below : ∀ e ∈ i.entries, e.position < limit
  anchored : i.anchors ≤ i.chosen
  skipped : i.skipped = 0
  entries : i.entries ++ i.stride.anchorsFrom i.last i.since left = target

variable {target : List Entry} {limit : Nat} {left : List Coverage}

/-- A block the stride leaves out, or takes with room for it, is kept. -/
theorem Keeps.written (hk : Keeps target limit i (block :: left))
    (hroom : i.stride.takes i.last (i.since + 1) block = true → i.Room allocates) :
    Keeps target limit (i.written block allocates).2 left
      ∧ ((i.written block allocates).2 = i.pass block
        ∨ i.Room allocates ∧ (i.written block allocates).2 = i.take block) := by
  obtain ⟨logical, physical, bytes, ho, ha, hrest⟩ := hk.place
  have hwithin : ∀ b ∈ left, b.bytes.end_ ≤ limit :=
    fun b hb => hk.within b (List.mem_cons_of_mem _ hb)
  have hentries := hk.entries
  rw [Stride.anchorsFrom] at hentries
  rw [written_eq ho ha]
  by_cases ht : i.stride.takes i.last (i.since + 1) block = true
  · rw [if_pos ht] at hentries ⊢
    rw [choose_of_room ho ha (hroom ht)]
    have hlast : (i.take block).last = some (block.bytes.begin_, block.physical.begin_) := by
      simp [last, SparseIndex.take]
    refine ⟨{ place := ⟨_, _, _, ho.take ha, hrest⟩, within := hwithin, below := ?_,
              anchored := ?_, skipped := hk.skipped, entries := ?_ }, .inr ⟨hroom ht, rfl⟩⟩
    · intro e he
      simp only [SparseIndex.take, List.mem_append, List.mem_singleton] at he
      rcases he with he | rfl
      · exact hk.below e he
      · have h₁ := ha.size
        have h₂ := hk.within block List.mem_cons_self
        simp only [smallestBlock] at h₁ ⊢
        omega
    · have := hk.anchored
      simp only [SparseIndex.take, SparseIndex.pass, chosen, List.length_append] at this ⊢
      omega
    · rw [hlast, ← hentries]
      simp [SparseIndex.take, SparseIndex.pass]
  · rw [if_neg ht] at hentries ⊢
    exact ⟨{ place := ⟨_, _, _, ho.pass ha, hrest⟩, within := hwithin, below := hk.below,
             anchored := hk.anchored, skipped := hk.skipped, entries := hentries }, .inl rfl⟩

/-- A block the stride takes is one the index has not reached its target without. -/
theorem Keeps.chosen_lt (hk : Keeps target limit i (block :: left))
    (ht : i.stride.takes i.last (i.since + 1) block = true) : i.chosen < target.length := by
  have hentries := hk.entries
  rw [Stride.anchorsFrom, if_pos ht] at hentries
  rw [← hentries, List.length_append, List.length_cons, chosen]
  omega

/-- A block the stride takes without room for it is passed over. -/
theorem Keeps.written_full (hk : Keeps target limit i (block :: left))
    (ht : i.stride.takes i.last (i.since + 1) block = true) (hfull : ¬ i.Room allocates) :
    (i.written block allocates).2.skipped ≠ 0 := by
  obtain ⟨logical, physical, bytes, ho, ha, -⟩ := hk.place
  rw [written_eq ho ha, if_pos ht, choose_of_full ho ha hfull]
  exact Nat.succ_ne_zero _

theorem skipped_le_choose : i.skipped ≤ (i.choose block allocates).2.skipped := by
  simp only [choose]
  split
  · exact Nat.le_succ _
  · split
    · exact Nat.le_succ _
    · exact le_rfl

/-- What is passed over stays counted. -/
theorem skipped_le_written : i.skipped ≤ (i.written block allocates).2.skipped := by
  simp only [SparseIndex.written]
  split
  · exact le_rfl
  · split
    · exact le_rfl
    · refine le_trans ?_ skipped_le_choose
      exact le_rfl

/-- **Every anchor becomes durable.** -/
theorem Keeps.durable (hk : Keeps target limit i []) :
    (i.durable limit).anchorList = target ∧ (i.durable limit).anchors = target.length
      ∧ (i.durable limit).fired = [] := by
  obtain ⟨_, _, _, ho, -⟩ := hk.place
  have htarget : i.entries = target := by simpa [Stride.anchorsFrom] using hk.entries
  have hall : (i.entries.drop i.anchors).takeWhile (fun e => decide (e.position < limit))
      = i.entries.drop i.anchors := by
    rw [List.takeWhile_eq_self_iff]
    intro e he
    exact decide_eq_true (hk.below e (List.mem_of_mem_drop he))
  have hanchored : i.anchors ≤ i.entries.length := hk.anchored
  have hsum : i.anchors + (i.entries.length - i.anchors) = i.entries.length := by omega
  refine ⟨?_, ?_, ?_⟩
  · simp only [SparseIndex.durable, anchorList, check, hall, List.length_drop, hsum, List.take_length]
    exact htarget
  · simp only [SparseIndex.durable, check, hall, List.length_drop, hsum]
    rw [htarget]
  · simp [SparseIndex.durable, check, ho.unfrozen, ho.fired]

/-! ## The rebuild's walk -/

theorem skipped_le_visits (i : SparseIndex) (objects : List WalkedObject) :
    i.skipped ≤ (objects.foldl visit i).skipped := by
  induction objects generalizing i with
  | nil => exact le_rfl
  | cons object rest ih =>
    refine le_trans ?_ (ih _)
    unfold visit
    split
    · exact skipped_le_written
    · exact le_rfl

theorem room_of_lt (hlt : i.chosen < i.admitted) (hcap : i.admitted ≤ i.capacity)
    (hchunk : i.admitted ≤ pageEntries) (hchunks : i.chunks = 1) : i.Room allocates := by
  refine ⟨by omega, by omega, ?_⟩
  rw [Nat.div_eq_of_lt (hlt.trans_le hchunk), hchunks]
  exact fun h => absurd h Nat.zero_ne_one

/-- **What a walk builds.** It admits nothing, so the chunk it began with is all it fills. With
    at most that many anchors to choose it holds all of them; with more, one is passed over. -/
theorem Keeps.visits {objects : List WalkedObject}
    (hk : Keeps target limit i (objects.filterMap (·.block)))
    (hfits : i.chosen ≤ i.admitted) (hcap : i.admitted ≤ i.capacity)
    (hchunk : i.admitted ≤ pageEntries) (hchunks : i.chunks = 1) :
    (target.length ≤ i.admitted → Keeps target limit (objects.foldl visit i) [])
      ∧ (i.admitted < target.length → (objects.foldl visit i).skipped ≠ 0) := by
  induction objects generalizing i with
  | nil =>
    refine ⟨fun _ => hk, ?_⟩
    intro hlt
    have htarget : i.entries = target := by simpa [Stride.anchorsFrom] using hk.entries
    have hlen : i.chosen = target.length := congrArg List.length htarget
    omega
  | cons object rest ih =>
    cases hblock : object.block with
    | none =>
      have hvisit : visit i object = i := by simp [visit, hblock]
      have hk' : Keeps target limit i (rest.filterMap (·.block)) := by
        simpa [hblock] using hk
      rw [List.foldl_cons, hvisit]
      exact ih hk' hfits hcap hchunk hchunks
    | some block =>
      have hvisit : visit i object = (i.written block object.allocates).2 := by
        simp [visit, hblock]
      have hk' : Keeps target limit i (block :: rest.filterMap (·.block)) := by
        simpa [hblock] using hk
      rw [List.foldl_cons, hvisit]
      by_cases hroom : i.stride.takes i.last (i.since + 1) block = true → i.Room object.allocates
      · obtain ⟨hkeeps, h | ⟨⟨-, hne, -⟩, h⟩⟩ := hk'.written hroom
        · rw [h] at hkeeps ⊢
          exact ih hkeeps hfits hcap hchunk hchunks
        · have hlt : i.chosen < i.admitted := lt_of_le_of_ne hfits hne
          have hdiv : i.chosen / pageEntries ≠ i.chunks := by
            rw [Nat.div_eq_of_lt (hlt.trans_le hchunk), hchunks]
            exact Nat.zero_ne_one
          rw [h] at hkeeps ⊢
          refine ih hkeeps ?_ hcap hchunk ?_
          · have hchosen : (i.take block).chosen = i.chosen + 1 := by
              simp [SparseIndex.take, chosen]
            rw [hchosen]
            exact hlt
          · simpa [SparseIndex.take, SparseIndex.pass, hdiv] using hchunks
      · rw [Classical.not_imp] at hroom
        have hskip := hk'.written_full hroom.1 hroom.2
        have hlt := hk'.chosen_lt hroom.1
        refine ⟨?_, fun _ => ?_⟩
        · intro hle
          exact absurd (room_of_lt (lt_of_lt_of_le hlt hle) hcap hchunk hchunks) hroom.2
        · have := skipped_le_visits (i.written block object.allocates).2 rest
          omega

end SparseIndex

/-! ## The live index -/

/-- What happens to the index of a segment that is written. -/
inductive Event
  /-- A group of so many blocks is planned. The budget is as it stands then. -/
  | admit_ (blocks : Nat) (budget : Budget)
  | written (block : Coverage) (allocates : Bool)
  | durable (end_ : Nat)

/-- The block an event offers. -/
def Event.block : Event → Option Coverage
  | .written block _ => some block
  | _ => none

/-- A live index, with the blocks of groups it was admitted for that were not offered. -/
structure Live where
  index : SparseIndex
  granted : Nat

namespace Live

/-- One event. A group that was refused is not written, so a block is offered only for a group
    that was admitted before. -/
def step (live : Live) : Event → Option Live
  | .admit_ blocks budget =>
    match live.index.admit_ blocks budget with
    | (none, index, _) => some ⟨index, live.granted + blocks⟩
    | (some _, index, _) => some ⟨index, live.granted⟩
  | .written block allocates =>
    if live.granted = 0 then none
    else some ⟨(live.index.written block allocates).2, live.granted - 1⟩
  | .durable end_ => some ⟨live.index.durable end_, live.granted⟩

/-- Events one after another. -/
def run : Live → List Event → Option Live
  | live, [] => some live
  | live, event :: rest => (live.step event).bind fun live => live.run rest

/-- The blocks of the groups admitted have entries admitted, as far as the capacity goes. -/
structure Funded (live : Live) : Prop where
  chosen : live.index.chosen ≤ live.index.capacity
  entries : live.index.capacity ≤ live.index.admitted
    ∨ live.index.chosen + live.index.promised ≤ live.index.admitted
      ∧ live.granted ≤ live.index.promised

end Live

namespace SparseIndex

variable {i : SparseIndex}

/-- The loop of an admission changes what is held and admitted alone. -/
theorem admitChunks_spec {wanted fuel : Nat} {b : Budget} {e : Option Errc} {i' : SparseIndex}
    {b' : Budget} (h : admitChunks wanted fuel i b = (e, i', b')) :
    (∃ held, i' = { i with held, admitted := i'.admitted }) ∧ i.admitted ≤ i'.admitted
      ∧ (e = none → wanted ≤ i.capacity → wanted ≤ i.admitted + fuel → wanted ≤ i'.admitted) := by
  induction fuel generalizing i b with
  | zero =>
    simp only [admitChunks, Prod.mk.injEq] at h
    obtain ⟨-, rfl, -⟩ := h
    exact ⟨⟨_, rfl⟩, le_rfl, fun _ _ h => h⟩
  | succ fuel ih =>
    simp only [admitChunks] at h
    split at h
    · next hlt =>
      split at h
      · next hcharge =>
        simp only [Prod.mk.injEq] at h
        obtain ⟨rfl, rfl, -⟩ := h
        exact ⟨⟨_, rfl⟩, le_rfl, fun h => by cases h⟩
      · split at h
        · simp only [Prod.mk.injEq] at h
          obtain ⟨rfl, rfl, -⟩ := h
          exact ⟨⟨_, rfl⟩, le_rfl, fun h => by cases h⟩
        · obtain ⟨⟨held, heq⟩, hle, hreach⟩ := ih h
          refine ⟨⟨held, heq⟩, le_trans (Nat.le_add_right _ _) hle, ?_⟩
          intro he hcap hfuel
          have hsome : 1 ≤ min pageEntries (i.capacity - i.admitted) :=
            Nat.le_min.mpr ⟨by decide, by omega⟩
          exact hreach he hcap (by simp only; omega)
    · next hge =>
      simp only [Prod.mk.injEq] at h
      obtain ⟨-, rfl, -⟩ := h
      exact ⟨⟨_, rfl⟩, le_rfl, fun _ _ _ => not_lt.mp hge⟩

/-- An admission changes the memory of an index and nothing it was told. -/
theorem admit_spec {blocks : Nat} {b b' : Budget} {e : Option Errc} {i' : SparseIndex}
    (hunfrozen : i.frozen = false) (h : i.admit_ blocks b = (e, i', b')) :
    (∃ held, i' = { i with held, admitted := i'.admitted, promised := i'.promised })
      ∧ i.admitted ≤ i'.admitted
      ∧ (e.isSome = true → i'.promised = i.promised)
      ∧ (e = none → min i.capacity (i.chosen + i.promised + blocks) ≤ i'.admitted
        ∧ i'.promised = min i.capacity (i.promised + blocks)) := by
  simp only [admit_, hunfrozen, Bool.false_eq_true, if_false] at h
  split at h
  · next e₀ i₀ b₀ hchunks =>
    obtain ⟨⟨held, heq⟩, hle, -⟩ := admitChunks_spec hchunks
    simp only [Prod.mk.injEq] at h
    obtain ⟨rfl, rfl, -⟩ := h
    have hpromised : i₀.promised = i.promised := by rw [heq]
    refine ⟨⟨held, ?_⟩, hle, fun _ => hpromised, fun h => by cases h⟩
    rw [hpromised]
    exact heq
  · next i₀ b₀ hchunks =>
    obtain ⟨⟨held, heq⟩, hle, hreach⟩ := admitChunks_spec hchunks
    simp only [Prod.mk.injEq] at h
    obtain ⟨rfl, rfl, -⟩ := h
    have hcap : i₀.capacity = i.capacity := by rw [heq]
    have hpromised : i₀.promised = i.promised := by rw [heq]
    refine ⟨⟨held, ?_⟩, hle, (by simp), fun _ => ⟨?_, ?_⟩⟩
    · rw [heq]
    · exact hreach rfl (Nat.min_le_left _ _) (by omega)
    · rw [hcap, hpromised]

/-- An index that differs in its memory alone keeps the same. -/
theorem Keeps.congr {target : List Entry} {limit : Nat} {left : List Coverage} {i' : SparseIndex}
    {held : Reservation} (hk : Keeps target limit i left)
    (h : i' = { i with held, admitted := i'.admitted, promised := i'.promised }) :
    Keeps target limit i' left := by
  obtain ⟨logical, physical, bytes, ho, ha⟩ := hk.place
  rw [h]
  exact { hk with place := ⟨logical, physical, bytes, { ho with }, ha⟩ }

/-- A barrier makes anchors of what was chosen. -/
theorem Keeps.advance {target : List Entry} {limit : Nat} {left : List Coverage} {end_ : Nat}
    (hk : Keeps target limit i left) : Keeps target limit (i.durable end_) left := by
  obtain ⟨logical, physical, bytes, ho, ha⟩ := hk.place
  have hcheck : i.check .frozen (!i.frozen) = i := by
    rw [ho.unfrozen]
    rfl
  have hanchored : i.anchors ≤ i.entries.length := hk.anchored
  have hlen : ((i.entries.drop i.anchors).takeWhile fun e => decide (e.position < end_)).length
      ≤ (i.entries.drop i.anchors).length := (List.takeWhile_prefix _).length_le
  rw [List.length_drop] at hlen
  simp only [SparseIndex.durable, hcheck]
  refine { hk with place := ⟨logical, physical, bytes, { ho with }, ha⟩, anchored := ?_ }
  simp only [chosen]
  omega

end SparseIndex

namespace Live

open SparseIndex

variable {target : List Entry} {limit : Nat} {live live' : Live}

/-- An admission changes the memory of the index, and what it grants it has admitted. -/
theorem Funded.admit_ {blocks : Nat} {budget : Budget} (hfunded : live.Funded)
    (hunfrozen : live.index.frozen = false) (hstep : live.step (.admit_ blocks budget) = some live') :
    (∃ held, live'.index =
        { live.index with held, admitted := live'.index.admitted, promised := live'.index.promised }) ∧
      live'.Funded := by
  obtain ⟨hchosen, hentries⟩ := hfunded
  simp only [step] at hstep
  split at hstep
  · next index b hadmitted =>
    obtain ⟨⟨held, heq⟩, hle, -, hok⟩ := admit_spec hunfrozen hadmitted
    obtain ⟨hadmitted, hpromised⟩ := hok rfl
    cases hstep
    have hcap : index.capacity = live.index.capacity := by rw [heq]
    have hsame : index.chosen = live.index.chosen := by rw [heq]; rfl
    refine ⟨⟨held, heq⟩, ⟨?_, ?_⟩⟩
    · simp only [hsame, hcap]
      exact hchosen
    · simp only [hsame, hcap, hpromised]
      rcases hentries with h | ⟨h₁, h₂⟩
      · exact .inl (h.trans hle)
      · omega
  · next e index b hadmitted =>
    obtain ⟨⟨held, heq⟩, hle, hrefused, -⟩ := admit_spec hunfrozen hadmitted
    cases hstep
    have hcap : index.capacity = live.index.capacity := by rw [heq]
    have hsame : index.chosen = live.index.chosen := by rw [heq]; rfl
    refine ⟨⟨held, heq⟩, ⟨?_, ?_⟩⟩
    · simp only [hsame, hcap]
      exact hchosen
    · simp only [hsame, hcap, hrefused rfl]
      omega

/-- A live index that keeps every anchor, with the memory for the groups it was admitted for. -/
theorem step_keeps {event : Event} {left : List Coverage}
    (hstep : live.step event = some live')
    (hk : Keeps target limit live.index (event.block.toList ++ left))
    (hfunded : live.Funded) (hroom : target.length ≤ live.index.capacity)
    (hmemory : ∀ block allocates, event = .written block allocates → allocates = true) :
    Keeps target limit live'.index left ∧ live'.Funded
      ∧ live'.index.capacity = live.index.capacity := by
  obtain ⟨_, _, _, ho, -⟩ := hk.place
  have hchosen := hfunded.chosen
  have hentries := hfunded.entries
  cases event with
  | admit_ blocks budget =>
    obtain ⟨⟨held, heq⟩, hfunded'⟩ := hfunded.admit_ ho.unfrozen hstep
    exact ⟨hk.congr heq, hfunded', by rw [heq]⟩
  | written block allocates =>
    obtain rfl := hmemory block allocates rfl
    simp only [step, Option.ite_none_left_eq_some, Option.some.injEq] at hstep
    obtain ⟨hgranted, rfl⟩ := hstep
    -- what is granted is promised, so the table is short of its admitted entries
    have hadm : live.index.chosen ≠ live.index.admitted ∨ live.index.chosen = live.index.capacity := by
      omega
    have htakes : live.index.stride.takes live.index.last (live.index.since + 1) block = true →
        live.index.Room true := by
      intro ht
      have hlt := hk.chosen_lt ht
      exact ⟨by omega, by omega, fun _ => rfl⟩
    obtain ⟨hkeeps, h | ⟨⟨hcap, -, -⟩, h⟩⟩ := hk.written htakes
    · rw [h] at hkeeps ⊢
      refine ⟨hkeeps, ⟨hchosen, ?_⟩, rfl⟩
      change live.index.capacity ≤ live.index.admitted
        ∨ live.index.chosen + (live.index.promised - 1) ≤ live.index.admitted
          ∧ live.granted - 1 ≤ live.index.promised - 1
      omega
    · have hlen : (live.index.take block).chosen = live.index.chosen + 1 := by
        simp [SparseIndex.take, SparseIndex.chosen]
      rw [h] at hkeeps ⊢
      refine ⟨hkeeps, ⟨?_, ?_⟩, rfl⟩
      · change (live.index.take block).chosen ≤ live.index.capacity
        omega
      · change live.index.capacity ≤ live.index.admitted
          ∨ (live.index.take block).chosen + (live.index.promised - 1) ≤ live.index.admitted
            ∧ live.granted - 1 ≤ live.index.promised - 1
        omega
  | durable end_ =>
    cases hstep
    exact ⟨hk.advance, ⟨hchosen, hentries⟩, rfl⟩

/-- The blocks of events, in order. -/
def offered (events : List Event) : List Coverage := events.filterMap Event.block

/-- **What the live index holds** after any events that offered it a segment's blocks. -/
theorem run_keeps {events : List Event} (hrun : live.run events = some live')
    (hk : Keeps target limit live.index (offered events)) (hfunded : live.Funded)
    (hroom : target.length ≤ live.index.capacity)
    (hmemory : ∀ event ∈ events, ∀ block allocates, event = .written block allocates →
      allocates = true) :
    Keeps target limit live'.index [] := by
  induction events generalizing live with
  | nil =>
    simp only [run, Option.some.injEq] at hrun
    subst hrun
    exact hk
  | cons event rest ih =>
    simp only [run, Option.bind_eq_some_iff] at hrun
    obtain ⟨next, hstep, hrest⟩ := hrun
    have hk' : Keeps target limit live.index (event.block.toList ++ offered rest) := by
      have hsplit : offered (event :: rest) = event.block.toList ++ offered rest := by
        cases h : event.block <;> simp [offered, h]
      rwa [hsplit] at hk
    obtain ⟨hkeeps, hfunded', hcap⟩ := step_keeps hstep hk' hfunded hroom
      (hmemory event List.mem_cons_self)
    exact ih hrest hkeeps hfunded' (hcap ▸ hroom)
      fun e he => hmemory e (List.mem_cons_of_mem _ he)

end Live

end KwaqueStorage.Index
