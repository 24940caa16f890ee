import KwaqueStorage.Index.Rebuild

/-!
# The capacity never binds

`sparse_index_capacity` gives a byte stride room for one anchor a stride and one a `maximum_anchor_blocks`
blocks, and one more. That this is enough is a count. Each anchor after the first was chosen for one of two
reasons, and each reason pays for itself: the distance in bytes from the anchor before, or the number of blocks
since. The two kinds of payment are never made twice, since both start again at every anchor, so the anchors
of the first kind are at most the strides below the end of the data and those of the second at most the
`maximum_anchor_blocks`-folds of the blocks.

Here blocks may hold no record. Such a block is no anchor, but it counts.
-/

namespace KwaqueStorage.Index

/-! ## The rule -/

/-- A block an anchor can name: it has a record whose offset can be written. -/
def HasRecords (block : Coverage) : Prop :=
  block.logical.isEmpty = false ∧ block.logical.begin_ ≠ noOffset

instance (block : Coverage) : Decidable (HasRecords block) := by
  unfold HasRecords
  infer_instance

namespace Stride

/-- A block is due: it is the first, a stride after the last anchor, or the `maximumAnchorBlocks`-th block
    after it, or later still. -/
def Due (stride : Stride) (last : Option Nat) (since : Nat) (block : Coverage) : Prop :=
  ∀ position ∈ last, stride.bytes ≤ block.bytes.begin_ - position ∨ maximumAnchorBlocks ≤ since

instance (stride : Stride) (last : Option Nat) (since : Nat) (block : Coverage) :
    Decidable (stride.Due last since block) := by
  unfold Due
  infer_instance

/-- Every block with records that is due becomes an anchor: what a byte stride chooses of blocks, with the
    last anchor at `last` and `since` blocks after it. -/
def dueFrom (stride : Stride) : Option Nat → Nat → List Coverage → List Entry
  | _, _, [] => []
  | last, since, block :: rest =>
    if HasRecords block ∧ stride.Due last (since + 1) block then
      ⟨block.logical.begin_, block.bytes.begin_⟩ :: stride.dueFrom (some block.bytes.begin_) 0 rest
    else stride.dueFrom last (since + 1) rest

end Stride

/-- Blocks in file order, none smaller than the smallest, that lie between two places. -/
def Filed (limit : Nat) : Nat → List Coverage → Prop
  | _, [] => True
  | bytes, block :: rest =>
    bytes ≤ block.bytes.begin_ ∧ block.bytes.begin_ + smallestBlock ≤ block.bytes.end_ ∧
      block.bytes.end_ ≤ limit ∧ Filed limit block.bytes.end_ rest

/-! ## One block -/

namespace SparseIndex

variable {i i' : SparseIndex} {block : Coverage} {allocates : Bool}

/-- What a block that is offered leaves as it was. -/
structure Follows (i i' : SparseIndex) (block : Coverage) : Prop where
  stride : i'.stride = i.stride
  capacity : i'.capacity = i.capacity
  admitted : i'.admitted = i.admitted
  promised : i'.promised = i.promised - 1
  skipped : i'.skipped = i.skipped
  frozen : i'.frozen = i.frozen
  offered : i'.offeredEnd = block.bytes.end_

/-- A block that was not chosen. -/
structure Passed (i i' : SparseIndex) (block : Coverage) : Prop extends Follows i i' block where
  entries : i'.entries = i.entries
  chosenBytes : i'.chosenBytes = i.chosenBytes
  since : i'.since = i.since + 1

/-- A block that was. -/
structure Taken (i i' : SparseIndex) (block : Coverage) : Prop extends Follows i i' block where
  entries : i'.entries = i.entries ++ [⟨block.logical.begin_, block.bytes.begin_⟩]
  chosenBytes : i'.chosenBytes = block.bytes.begin_
  since : i'.since = 0

/-- Where the last anchor lies. -/
def lastAnchor (i : SparseIndex) : Option Nat := if i.entries = [] then none else some i.chosenBytes

theorem passesOver_iff (hrecords : i.stride.records = 0) :
    i.passesOver block = true ↔ ¬ i.stride.Due i.lastAnchor i.since block := by
  unfold passesOver lastAnchor Stride.Due chosen
  rw [hrecords]
  by_cases hempty : i.entries = []
  · simp [hempty]
  · simp only [hempty, List.length_eq_zero_iff, ne_eq, not_false_eq_true, decide_true, Bool.true_or,
      Bool.true_and, Bool.and_true, Bool.and_eq_true, decide_eq_true_eq, if_false, Option.mem_def,
      Option.some.injEq, forall_eq', not_or, not_le]

/-- A block that was offered is chosen if there is room for it. -/
theorem Passed.choose (h : Passed i i' block) (hroom : i'.Room allocates) :
    Taken i (i'.choose block allocates).2 block := by
  obtain ⟨hcap, hadm, hmem⟩ := hroom
  unfold SparseIndex.choose
  dsimp only
  split
  next hfull =>
    rcases hfull with hfull | hfull
    · exact absurd hfull hcap
    · exact absurd hfull hadm
  next =>
    split
    next hchunk =>
      have hallocates := hmem hchunk.1
      rw [hchunk.2] at hallocates
      cases hallocates
    next =>
      refine ⟨⟨h.stride, h.capacity, h.admitted, h.promised, h.skipped, h.frozen, h.offered⟩, ?_, rfl, rfl⟩
      show i'.entries ++ _ = _
      rw [h.entries]

/-- **One block.** It is chosen exactly when it has records and is due, if there is room for it. -/
theorem written_spec (hrecords : i.stride.records = 0)
    (hroom : HasRecords block → i.stride.Due i.lastAnchor (i.since + 1) block → i.Room allocates) :
    if HasRecords block ∧ i.stride.Due i.lastAnchor (i.since + 1) block then
      Taken i (i.written block allocates).2 block
    else Passed i (i.written block allocates).2 block := by
  have hoffer : Passed i (i.offer block) block := ⟨⟨rfl, rfl, rfl, rfl, rfl, rfl, rfl⟩, rfl, rfl, rfl⟩
  by_cases hhas : HasRecords block
  · have hnone : (block.logical.isEmpty || decide (block.logical.begin_ = noOffset)) = false := by
      rw [hhas.1, decide_eq_false hhas.2]
      rfl
    -- the checks of the order fire or not, and change nothing else
    have hpasses : ∀ held, ((i.offer block).check .order held).passesOver block = true ↔
        ¬ i.stride.Due i.lastAnchor (i.since + 1) block :=
      fun held => passesOver_iff hrecords
    unfold written
    rw [if_neg (Bool.eq_false_iff.mp hnone)]
    dsimp only
    by_cases hdue : i.stride.Due i.lastAnchor (i.since + 1) block
    · rw [if_pos ⟨hhas, hdue⟩, if_neg fun h => (hpasses _).mp h hdue]
      exact Passed.choose ⟨⟨rfl, rfl, rfl, rfl, rfl, rfl, rfl⟩, rfl, rfl, rfl⟩ (hroom hhas hdue)
    · rw [if_neg fun h => hdue h.2, if_pos ((hpasses _).mpr hdue)]
      exact ⟨⟨rfl, rfl, rfl, rfl, rfl, rfl, rfl⟩, rfl, rfl, rfl⟩
  · have hsome : (block.logical.isEmpty || decide (block.logical.begin_ = noOffset)) = true := by
      unfold HasRecords at hhas
      cases hempty : block.logical.isEmpty with
      | true => rfl
      | false =>
        rw [hempty] at hhas
        simp only [true_and, ne_eq, not_not] at hhas
        rw [decide_eq_true hhas]
        rfl
    rw [if_neg fun h => hhas h.1]
    unfold written
    rw [if_pos hsome]
    exact hoffer

/-! ## What each anchor is paid with -/

/-- **The count.** Of the anchors after the first, some were paid with a stride of bytes each and the others
    with `maximumAnchorBlocks` blocks each, and nothing was spent twice. `blocks` were offered. -/
structure Paid (i : SparseIndex) (blocks : Nat) : Prop where
  paid : i.entries ≠ [] → ∃ byBytes byBlocks, i.chosen = 1 + byBytes + byBlocks ∧
    byBytes * i.stride.bytes ≤ i.chosenBytes ∧ byBlocks * maximumAnchorBlocks + i.since + 1 ≤ blocks
  chosen : i.chosen ≤ blocks
  size : blocks * smallestBlock ≤ i.offeredEnd
  placed : i.entries ≠ [] → i.chosenBytes ≤ i.offeredEnd

variable {blocks limit : Nat}

/-- What a block that is due is paid with. -/
theorem Paid.due (h : i.Paid blocks) (hplace : i.offeredEnd ≤ block.bytes.begin_)
    (hdue : i.stride.Due i.lastAnchor (i.since + 1) block) :
    ∃ byBytes byBlocks, i.chosen = byBytes + byBlocks ∧
      byBytes * i.stride.bytes ≤ block.bytes.begin_ ∧ byBlocks * maximumAnchorBlocks ≤ blocks := by
  by_cases hempty : i.entries = []
  · refine ⟨0, 0, ?_, by omega, by omega⟩
    unfold SparseIndex.chosen
    rw [hempty]
    rfl
  obtain ⟨byBytes, byBlocks, hchosen, hbytes, hblocks⟩ := h.paid hempty
  have hplaced := h.placed hempty
  have hlast : i.chosenBytes ∈ i.lastAnchor := by
    unfold lastAnchor
    rw [if_neg hempty]
    rfl
  rcases hdue _ hlast with hfar | hmany
  · refine ⟨byBytes + 1, byBlocks, by omega, ?_, by omega⟩
    rw [Nat.succ_mul]
    omega
  · refine ⟨byBytes, byBlocks + 1, by omega, by omega, ?_⟩
    rw [Nat.succ_mul]
    omega

theorem Passed.paid (h : i.Paid blocks) (hplace : i.offeredEnd ≤ block.bytes.begin_)
    (hsize : block.bytes.begin_ + smallestBlock ≤ block.bytes.end_) (hp : Passed i i' block) :
    i'.Paid (blocks + 1) := by
  have hchosen : i'.chosen = i.chosen := congrArg List.length hp.entries
  refine ⟨?_, ?_, ?_, ?_⟩
  · rw [hp.entries, hchosen, hp.toFollows.stride, hp.chosenBytes, hp.since]
    intro hne
    obtain ⟨byBytes, byBlocks, hcount, hbytes, hblocks⟩ := h.paid hne
    exact ⟨byBytes, byBlocks, hcount, hbytes, by omega⟩
  · have := h.chosen
    omega
  · have := h.size
    rw [hp.toFollows.offered, Nat.succ_mul]
    omega
  · rw [hp.entries, hp.chosenBytes, hp.toFollows.offered]
    intro hne
    have := h.placed hne
    omega

theorem Taken.paid (h : i.Paid blocks) (hplace : i.offeredEnd ≤ block.bytes.begin_)
    (hsize : block.bytes.begin_ + smallestBlock ≤ block.bytes.end_)
    (hdue : i.stride.Due i.lastAnchor (i.since + 1) block) (ht : Taken i i' block) :
    i'.Paid (blocks + 1) := by
  have hchosen : i'.chosen = i.chosen + 1 := by
    unfold SparseIndex.chosen
    rw [ht.entries, List.length_append, List.length_singleton]
  refine ⟨fun _ => ?_, ?_, ?_, fun _ => ?_⟩
  · obtain ⟨byBytes, byBlocks, hcount, hbytes, hblocks⟩ := h.due hplace hdue
    rw [hchosen, ht.toFollows.stride, ht.chosenBytes, ht.since]
    exact ⟨byBytes, byBlocks, by omega, hbytes, by omega⟩
  · have := h.chosen
    omega
  · have := h.size
    rw [ht.toFollows.offered, Nat.succ_mul]
    omega
  · rw [ht.chosenBytes, ht.toFollows.offered]
    omega

/-- **The capacity has room for a block that is due.** -/
theorem Paid.chosen_lt_capacity {maximumBlocks : Nat} (h : i.Paid blocks)
    (hplace : i.offeredEnd ≤ block.bytes.begin_)
    (hsize : block.bytes.begin_ + smallestBlock ≤ block.bytes.end_) (hend : block.bytes.end_ ≤ limit)
    (hblocks : blocks + 1 ≤ maximumBlocks)
    (hdue : i.stride.Due i.lastAnchor (i.since + 1) block)
    (hrecords : i.stride.records = 0) (hbytes : 0 < i.stride.bytes)
    (hcapacity : sparseIndexCapacity i.stride limit maximumBlocks < maximumObjectEntries) :
    i.chosen < sparseIndexCapacity i.stride limit maximumBlocks := by
  obtain ⟨byBytes, byBlocks, hcount, hpaidBytes, hpaidBlocks⟩ := h.due hplace hdue
  have hchosen := h.chosen
  have hspace := h.size
  have hstrides : byBytes ≤ limit / i.stride.bytes := by
    rw [Nat.le_div_iff_mul_le hbytes]
    omega
  have hfit : blocks ≤ min maximumBlocks (limit / smallestBlock) := by
    refine Nat.le_min.mpr ⟨by omega, ?_⟩
    rw [Nat.le_div_iff_mul_le (by decide)]
    omega
  have hmany : byBlocks ≤ min maximumBlocks (limit / smallestBlock) / maximumAnchorBlocks := by
    rw [Nat.le_div_iff_mul_le (by decide)]
    omega
  have hnostride : ¬ (i.stride.records ≠ 0 ∨ i.stride.bytes = 0) := by omega
  unfold sparseIndexCapacity at hcapacity ⊢
  rw [if_neg hnostride] at hcapacity ⊢
  dsimp only at hcapacity ⊢
  generalize limit / i.stride.bytes = strides at *
  generalize min maximumBlocks (limit / smallestBlock) / maximumAnchorBlocks = many at *
  -- where the bound is that of the blocks, every anchor is one of them
  split
  next hmost =>
    rw [if_pos hmost] at hcapacity
    omega
  next hmost =>
    rw [if_neg hmost] at hcapacity
    split
    next => omega
    next hbound =>
      rw [if_neg hbound] at hcapacity
      omega

end SparseIndex

/-! ## Whole runs -/

namespace Live

open SparseIndex

variable {live live' : Live} {limit maximumBlocks : Nat} {target : List Entry} {left : List Coverage}

/-- A live index that has skipped nothing: `offered` blocks came, `left` are to come, and with them it will
    hold `target`. -/
structure Fed (limit maximumBlocks : Nat) (target : List Entry) (live : Live) (offered : Nat)
    (left : List Coverage) : Prop where
  records : live.index.stride.records = 0
  bytes : 0 < live.index.stride.bytes
  capacity : live.index.capacity = sparseIndexCapacity live.index.stride limit maximumBlocks
  binding : live.index.capacity < maximumObjectEntries
  unfrozen : live.index.frozen = false
  skipped : live.index.skipped = 0
  funded : live.Funded
  paid : live.index.Paid offered
  count : offered + left.length ≤ maximumBlocks
  filed : Filed limit live.index.offeredEnd left
  entries : live.index.entries ++ live.index.stride.dueFrom live.index.lastAnchor live.index.since left = target

/-- The groups admitted have entries admitted, for a block more too. -/
theorem Funded.follows {block : Coverage} {i' : SparseIndex} (hfunded : live.Funded)
    (hgranted : live.granted ≠ 0) (hf : Follows live.index i' block)
    (hchosen : i'.chosen ≤ live.index.chosen + 1) (hle : i'.chosen ≤ live.index.capacity) :
    Funded ⟨i', live.granted - 1⟩ := by
  refine ⟨?_, ?_⟩
  · show i'.chosen ≤ i'.capacity
    rw [hf.capacity]
    exact hle
  · show i'.capacity ≤ i'.admitted ∨ i'.chosen + i'.promised ≤ i'.admitted ∧ live.granted - 1 ≤ i'.promised
    rw [hf.capacity, hf.admitted, hf.promised]
    have := hfunded.entries
    omega

/-- A block more, chosen or not. -/
theorem Fed.follows {offered : Nat} {block : Coverage} {i' : SparseIndex}
    (h : Fed limit maximumBlocks target live offered (block :: left)) (hgranted : live.granted ≠ 0)
    (hf : Follows live.index i' block) (hchosen : i'.chosen ≤ live.index.chosen + 1)
    (hle : i'.chosen ≤ live.index.capacity) (hpaid : i'.Paid (offered + 1))
    (hentries : i'.entries ++ live.index.stride.dueFrom i'.lastAnchor i'.since left = target) :
    Fed limit maximumBlocks target ⟨i', live.granted - 1⟩ (offered + 1) left where
  records := hf.stride ▸ h.records
  bytes := hf.stride ▸ h.bytes
  capacity := by
    show i'.capacity = sparseIndexCapacity i'.stride limit maximumBlocks
    rw [hf.capacity, hf.stride]
    exact h.capacity
  binding := hf.capacity ▸ h.binding
  unfrozen := hf.frozen.trans h.unfrozen
  skipped := hf.skipped.trans h.skipped
  funded := h.funded.follows hgranted hf hchosen hle
  paid := hpaid
  count := by
    have := h.count
    rw [List.length_cons] at this
    omega
  filed := hf.offered ▸ h.filed.2.2.2
  entries := hf.stride ▸ hentries

/-- **One event** leaves nothing skipped. -/
theorem step_fed {event : Event} {offered : Nat} (hstep : live.step event = some live')
    (h : Fed limit maximumBlocks target live offered (event.block.toList ++ left))
    (hmemory : ∀ block allocates, event = .written block allocates → allocates = true) :
    Fed limit maximumBlocks target live' (offered + event.block.toList.length) left := by
  cases event with
  | admit_ blocks budget =>
    obtain ⟨⟨held, heq⟩, hfunded⟩ := h.funded.admit_ h.unfrozen hstep
    obtain ⟨index, granted⟩ := live'
    dsimp only at heq
    generalize index.admitted = admitted at heq
    generalize index.promised = promised at heq
    subst heq
    exact { h with funded := hfunded, paid := ⟨h.paid.paid, h.paid.chosen, h.paid.size, h.paid.placed⟩ }
  | written block allocates =>
    obtain rfl := hmemory block allocates rfl
    simp only [step, Option.ite_none_left_eq_some, Option.some.injEq] at hstep
    obtain ⟨hgranted, rfl⟩ := hstep
    change Fed limit maximumBlocks target live offered (block :: left) at h
    obtain ⟨hplace, hsize, hend, -⟩ := h.filed
    -- a block that is due has room under the capacity, and what is granted is promised and admitted
    have hlt : live.index.stride.Due live.index.lastAnchor (live.index.since + 1) block →
        live.index.chosen < live.index.capacity := by
      intro hdue
      have hbinding := h.binding
      have hcount := h.count
      rw [List.length_cons] at hcount
      rw [h.capacity] at hbinding ⊢
      exact h.paid.chosen_lt_capacity hplace hsize hend (by omega) hdue h.records h.bytes hbinding
    have hroom : HasRecords block →
        live.index.stride.Due live.index.lastAnchor (live.index.since + 1) block → live.index.Room true := by
      intro _ hdue
      have hless := hlt hdue
      have hentries := h.funded.entries
      exact ⟨by omega, by omega, fun _ => rfl⟩
    have hspec := written_spec h.records hroom
    have hentries := h.entries
    rw [Stride.dueFrom] at hentries
    split at hspec
    next hdue =>
      rw [if_pos hdue] at hentries
      have hchosen : (live.index.written block true).2.chosen = live.index.chosen + 1 := by
        unfold SparseIndex.chosen
        rw [hspec.entries, List.length_append, List.length_singleton]
      have hlast : (live.index.written block true).2.lastAnchor = some block.bytes.begin_ := by
        unfold lastAnchor
        rw [hspec.entries, if_neg (by simp), hspec.chosenBytes]
      refine h.follows hgranted hspec.toFollows (Nat.le_of_eq hchosen) (hchosen ▸ hlt hdue.2)
        (Taken.paid h.paid hplace hsize hdue.2 hspec) ?_
      rw [hspec.entries, hlast, hspec.since, List.append_assoc]
      exact hentries
    next hdue =>
      rw [if_neg hdue] at hentries
      have hchosen : (live.index.written block true).2.chosen = live.index.chosen :=
        congrArg List.length hspec.entries
      have hlast : (live.index.written block true).2.lastAnchor = live.index.lastAnchor := by
        unfold lastAnchor
        rw [hspec.entries, hspec.chosenBytes]
      refine h.follows hgranted hspec.toFollows (by omega) (hchosen ▸ h.funded.chosen)
        (Passed.paid h.paid hplace hsize hspec) ?_
      rw [hspec.entries, hlast, hspec.since]
      exact hentries
  | durable end_ =>
    cases hstep
    exact ⟨h.records, h.bytes, h.capacity, h.binding, h.unfrozen, h.skipped, ⟨h.funded.chosen, h.funded.entries⟩,
      ⟨h.paid.paid, h.paid.chosen, h.paid.size, h.paid.placed⟩, h.count, h.filed, h.entries⟩

theorem run_fed {events : List Event} {count : Nat} (hrun : live.run events = some live')
    (h : Fed limit maximumBlocks target live count (offered events))
    (hmemory : ∀ event ∈ events, ∀ block allocates, event = .written block allocates →
      allocates = true) :
    ∃ count', Fed limit maximumBlocks target live' count' [] := by
  induction events generalizing live count with
  | nil =>
    simp only [run, Option.some.injEq] at hrun
    subst hrun
    exact ⟨count, h⟩
  | cons event rest ih =>
    simp only [run, Option.bind_eq_some_iff] at hrun
    obtain ⟨next, hstep, hrest⟩ := hrun
    have hsplit : offered (event :: rest) = event.block.toList ++ offered rest := by
      cases hblock : event.block with
      | none => simp [offered, hblock]
      | some block => simp [offered, hblock]
    rw [hsplit] at h
    exact ih hrest (step_fed hstep h (hmemory event List.mem_cons_self))
      fun e he => hmemory e (List.mem_cons_of_mem _ he)

/-- **The capacity never binds.** An index with a byte stride alone, made with the capacity for its data and
    its blocks, skips nothing: its anchors are exactly the blocks with records that were due. -/
theorem capacity_never_binds {stride : Stride} {maximumDataBytes maximumBlocks : Nat}
    (hrecords : stride.records = 0) (hbytes : 0 < stride.bytes)
    (hcapacity : sparseIndexCapacity stride maximumDataBytes maximumBlocks < maximumObjectEntries)
    {budget rest : Budget} {made : SparseIndex}
    (hmade : SparseIndex.make stride (sparseIndexCapacity stride maximumDataBytes maximumBlocks) budget =
      .ok (made, rest))
    {events : List Event} (hrun : run ⟨made, 0⟩ events = some live)
    (hmemory : ∀ event ∈ events, ∀ block allocates, event = .written block allocates → allocates = true)
    (hcount : (offered events).length ≤ maximumBlocks)
    (hfiled : Filed maximumDataBytes 0 (offered events)) :
    live.index.skipped = 0 ∧ live.index.entries = stride.dueFrom none 0 (offered events) := by
  obtain ⟨held, rfl⟩ := make_spec hmade
  have hstart : Fed maximumDataBytes maximumBlocks (stride.dueFrom none 0 (offered events))
      ⟨{ held, stride, capacity := sparseIndexCapacity stride maximumDataBytes maximumBlocks, chunks := 1,
         admitted := min (sparseIndexCapacity stride maximumDataBytes maximumBlocks) pageEntries }, 0⟩ 0
      (offered events) := by
    refine ⟨hrecords, hbytes, rfl, hcapacity, rfl, rfl, ⟨Nat.zero_le _, .inr ⟨Nat.zero_le _, Nat.le_refl _⟩⟩,
      ⟨fun h => absurd rfl h, Nat.le_refl _, Nat.le_refl _, fun h => absurd rfl h⟩, ?_, hfiled, rfl⟩
    rw [Nat.zero_add]
    exact hcount
  obtain ⟨count, hfed⟩ := run_fed hrun hstart hmemory
  refine ⟨hfed.skipped, ?_⟩
  have hentries := hfed.entries
  rw [Stride.dueFrom, List.append_nil] at hentries
  exact hentries

/-- Three blocks, one of them a stride after the first. -/
def fewBlocks : List Coverage :=
  [⟨⟨0, 1⟩, ⟨0, 1⟩, ⟨0, 208⟩⟩, ⟨⟨1, 1⟩, ⟨1, 1⟩, ⟨208, 416⟩⟩, ⟨⟨1, 2⟩, ⟨1, 2⟩, ⟨40000, 40208⟩⟩]

/-- The index made for them. -/
def fewMade : SparseIndex where
  held := ⟨600, 88⟩
  stride := {}
  capacity := 4
  chunks := 1
  admitted := 4

theorem capacity_never_binds_few : ∃ live, run ⟨fewMade, 0⟩ (appending fewBlocks roomy) = some live ∧
    live.index.skipped = 0 ∧ live.index.entries = [⟨0, 0⟩, ⟨1, 40000⟩] := by
  obtain ⟨live, hrun⟩ := Option.isSome_iff_exists.mp (@run_appending fewBlocks roomy fewMade rfl)
  have hmade : SparseIndex.make {} (sparseIndexCapacity {} 100000 100) roomy =
      .ok (fewMade, { roomy with tasks := 63, localBytes := 2 ^ 30 - 600, workloadMemory := 2 ^ 30 - 600 }) :=
    rfl
  have hfiled : Filed 100000 0 (offered (appending fewBlocks roomy)) := by
    rw [offered_appending]
    simp [Filed, fewBlocks, smallestBlock]
  have hcount : (offered (appending fewBlocks roomy)).length ≤ 100 := by
    rw [offered_appending]
    decide
  have hskips := capacity_never_binds rfl (by decide : 0 < 32 * 1024) (by decide) hmade hrun memory_appending
    hcount hfiled
  rw [offered_appending] at hskips
  exact ⟨live, hrun, hskips.1, hskips.2.trans (by decide)⟩

end Live

end KwaqueStorage.Index
