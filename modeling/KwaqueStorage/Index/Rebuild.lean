import KwaqueStorage.Index.Feed

/-!
# A rebuilt index and the live one

Both are the same object fed the same blocks. What sets them apart is the room each has. The live
index is admitted for the blocks of a group before they are offered, so only its capacity bounds
it, and that capacity is large enough for whatever the stride chooses (`anchors_le_capacity`). The
rebuild admits nothing after its first chunk, so it holds `pageEntries` anchors at most; a block
chosen after that is passed over, and the rebuild then builds nothing.
-/

namespace KwaqueStorage.Index

/-! ## The capacity is enough -/

section Capacity

variable {stride : Stride} {blocks : List Coverage} {logical physical bytes limit : Nat}

theorem anchorsFrom_length_le {last : Option (Nat × Nat)} {since : Nat} :
    (stride.anchorsFrom last since blocks).length ≤ blocks.length := by
  induction blocks generalizing last since with
  | nil => exact le_rfl
  | cons block rest ih =>
    rw [Stride.anchorsFrom]
    split
    · exact Nat.succ_le_succ ih
    · exact ih.trans (Nat.le_succ _)

/-- A byte stride chooses one block a stride and one a `maximumAnchorBlocks` after the last. -/
theorem anchorsFrom_length_le_bound (hrecords : stride.records = 0) (hbytes : stride.bytes ≠ 0)
    (from_ records since : Nat) (happ : Appended logical physical bytes blocks)
    (hfrom : from_ ≤ bytes) (hwithin : ∀ block ∈ blocks, block.bytes.end_ ≤ limit) :
    (stride.anchorsFrom (some (from_, records)) since blocks).length
      ≤ (limit - from_) / stride.bytes + (since + blocks.length) / maximumAnchorBlocks := by
  induction blocks generalizing logical physical bytes from_ records since with
  | nil => exact Nat.zero_le _
  | cons block rest ih =>
    obtain ⟨ha, hrest⟩ := happ
    have hsize := ha.size
    have hle := ha.bytes
    have hend := hwithin block List.mem_cons_self
    have hwithin' : ∀ b ∈ rest, b.bytes.end_ ≤ limit :=
      fun b hb => hwithin b (List.mem_cons_of_mem _ hb)
    rw [Stride.anchorsFrom]
    split
    · next ht =>
      have hrec := ih block.bytes.begin_ block.physical.begin_ 0
        hrest (by omega) hwithin'
      rw [List.length_cons, List.length_cons]
      -- the block is a stride or `maximumAnchorBlocks` blocks after the last one chosen
      have hwhy : stride.bytes ≤ block.bytes.begin_ - from_ ∨ maximumAnchorBlocks ≤ since + 1 := by
        simp only [Stride.takes, hrecords, decide_true, Bool.true_or, Bool.and_true,
          Bool.not_and, Bool.or_eq_true, Bool.not_eq_true', decide_eq_false_iff_not] at ht
        omega
      have hmono : (limit - block.bytes.begin_) / stride.bytes ≤ (limit - from_) / stride.bytes :=
        Nat.div_le_div_right (by omega)
      rcases hwhy with hfar | hmany
      · have hone : (limit - block.bytes.begin_) / stride.bytes + 1
            ≤ (limit - from_) / stride.bytes := by
          rw [← Nat.add_div_right _ (Nat.pos_of_ne_zero hbytes)]
          exact Nat.div_le_div_right (by omega)
        have hblocks : (0 + rest.length) / maximumAnchorBlocks
            ≤ (since + (rest.length + 1)) / maximumAnchorBlocks :=
          Nat.div_le_div_right (by omega)
        omega
      · have hone : (0 + rest.length) / maximumAnchorBlocks + 1
            ≤ (since + (rest.length + 1)) / maximumAnchorBlocks := by
          rw [← Nat.add_div_right _ (by decide)]
          exact Nat.div_le_div_right (by omega)
        omega
    · have hrec := ih from_ records (since + 1) hrest
        (by simp only [smallestBlock] at hsize; omega) hwithin'
      rw [List.length_cons]
      have hsum : since + 1 + rest.length = since + (rest.length + 1) := by omega
      rwa [hsum] at hrec

theorem blocks_bytes_le (happ : Appended logical physical bytes blocks)
    (hwithin : ∀ block ∈ blocks, block.bytes.end_ ≤ limit) (hbytes : bytes ≤ limit) :
    bytes + blocks.length * smallestBlock ≤ limit := by
  induction blocks generalizing logical physical bytes with
  | nil => simpa using hbytes
  | cons block rest ih =>
    obtain ⟨ha, hrest⟩ := happ
    have hsize := ha.size
    have hle := ha.bytes
    have hrec := ih hrest (fun b hb => hwithin b (List.mem_cons_of_mem _ hb))
      (hwithin block List.mem_cons_self)
    rw [List.length_cons, Nat.succ_mul]
    omega

theorem appended_records (happ : Appended logical physical bytes blocks) :
    ∀ block ∈ blocks, block.physical.begin_ < block.physical.end_ := by
  induction blocks generalizing logical physical bytes with
  | nil => exact fun _ h => absurd h List.not_mem_nil
  | cons block rest ih =>
    intro b hb
    rcases List.mem_cons.mp hb with rfl | hb
    · exact happ.1.records
    · exact ih happ.2 b hb

end Capacity

namespace Extent

/-- **A segment's capacity holds what its stride chooses**, as far as one object's entries go. -/
theorem anchors_le_capacity (e : Extent) {stride : Stride} {data blocks : Nat}
    (hdata : e.end_ ≤ data) (hblocks : e.blocks.length ≤ blocks)
    (hobject : (stride.anchors e.blocks).length ≤ maximumObjectEntries) :
    (stride.anchors e.blocks).length ≤ sparseIndexCapacity stride data blocks := by
  have hmost : (stride.anchors e.blocks).length ≤ min blocks maximumObjectEntries :=
    Nat.le_min.mpr ⟨anchorsFrom_length_le.trans hblocks, hobject⟩
  simp only [sparseIndexCapacity]
  split
  · exact hmost
  · next hstride =>
    rw [not_or, not_not] at hstride
    split
    · exact hmost
    · split
      · cases hlist : e.blocks with
        | nil => exact Nat.zero_le _
        | cons block rest =>
          have happ := e.appended
          have hwithin := e.within
          rw [hlist] at happ hwithin hblocks
          obtain ⟨ha, hrest⟩ := happ
          have hend := hwithin block List.mem_cons_self
          have hsize := ha.size
          have hbound := anchorsFrom_length_le_bound hstride.1 hstride.2
            block.bytes.begin_ block.physical.begin_ 0 hrest
            (by omega) (fun b hb => hwithin b (List.mem_cons_of_mem _ hb))
          have hfit := blocks_bytes_le hrest (fun b hb => hwithin b (List.mem_cons_of_mem _ hb)) hend
          have hone : stride.anchors (block :: rest)
              = ⟨block.logical.begin_, block.bytes.begin_⟩ :: stride.anchorsFrom
                  (some (block.bytes.begin_, block.physical.begin_)) 0 rest := rfl
          rw [hone, List.length_cons]
          have hstrides : (e.end_ - block.bytes.begin_) / stride.bytes ≤ data / stride.bytes :=
            Nat.div_le_div_right (by omega)
          have hcount : rest.length ≤ min blocks (data / smallestBlock) := by
            refine Nat.le_min.mpr ⟨?_, ?_⟩
            · rw [List.length_cons] at hblocks
              omega
            · rw [Nat.le_div_iff_mul_le (by decide)]
              omega
          have hdiv : (0 + rest.length) / maximumAnchorBlocks
              ≤ min blocks (data / smallestBlock) / maximumAnchorBlocks :=
            Nat.div_le_div_right (by omega)
          omega
      · exact hmost

end Extent

/-! ## The two indexes of one segment -/

namespace SparseIndex

theorem make_spec {stride : Stride} {capacity : Nat} {b b' : Budget} {i : SparseIndex}
    (h : make stride capacity b = .ok (i, b')) :
    ∃ held, i = { held, stride, capacity, chunks := 1, admitted := min capacity pageEntries } := by
  simp only [make, bind, Except.bind] at h
  split at h
  · cases h
  · split at h
    · cases h
    · next v _ =>
      simp only [pure, Except.pure, Except.ok.injEq, Prod.mk.injEq] at h
      exact ⟨v.1, h.1.symm⟩

/-- A fresh index keeps what is to come. -/
theorem keeps_of_make {e : Extent} {stride : Stride} {capacity : Nat} {b b' : Budget}
    {i : SparseIndex} (h : make stride capacity b = .ok (i, b')) :
    Keeps (stride.anchors e.blocks) e.end_ i e.blocks := by
  obtain ⟨held, rfl⟩ := make_spec h
  refine { place := ⟨e.origin, 0, e.dataStart, ?_, e.appended⟩, within := e.within,
           below := fun _ h => absurd h List.not_mem_nil, anchored := le_rfl, skipped := rfl,
           entries := rfl }
  exact { unfrozen := rfl, fired := rfl, offered := Nat.zero_le _,
          records := fun h => absurd rfl h, anchors := fun _ h => by cases h }

/-- A page is a run of the anchors. -/
theorem page_eq (i : SparseIndex) (o : Nat) :
    i.page o = (i.anchorList.drop (o * pageEntries)).take pageEntries := by
  rw [page, anchorList, List.drop_take, List.take_take]

/-- What is published is a matter of the anchors alone. -/
theorem publish_congr {Bytes Ref : Type} (encoder : IndexEncoder Bytes Ref) {i j : SparseIndex}
    (hfrozen : i.frozen = j.frozen) (hcount : i.anchors = j.anchors)
    (hlist : i.anchorList = j.anchorList) :
    publishSparseIndex encoder i = publishSparseIndex encoder j := by
  have hpage : i.page = j.page := by
    funext o
    rw [page_eq, page_eq, hlist]
  have hpages : i.pages = j.pages := by rw [pages, pages, hcount]
  simp only [publishSparseIndex, hfrozen, hcount, hpage, hpages]

end SparseIndex

/-- The budget has room for an index of `capacity` anchors and for all of its blocks. -/
def HasRoom (b : Budget) (stride : Stride) (capacity blocks : Nat) : Prop :=
  ∃ index rest, SparseIndex.make stride capacity b = .ok (index, rest)
    ∧ (index.admit_ blocks rest).1 = none

/-- One segment, written to its end and sealed: the index it was fed while it was written, and
    what a rebuild of its index meets. -/
structure Sealed where
  stride : Stride
  extent : Extent
  /-- Its descriptor's bytes and its writer's blocks, which its capacity comes from. -/
  maximumDataBytes : Nat
  maximumBlocks : Nat
  data_le : extent.end_ ≤ maximumDataBytes
  blocks_le : extent.blocks.length ≤ maximumBlocks
  /-- The index made for it, and what it was told. -/
  made : SparseIndex
  writing : Budget × Budget
  made_ok : SparseIndex.make stride (sparseIndexCapacity stride maximumDataBytes maximumBlocks)
    writing.1 = .ok (made, writing.2)
  events : List Event
  fed : Live
  fed_ok : Live.run ⟨made, 0⟩ events = some fed
  offered : Live.offered events = extent.blocks
  memory : ∀ event ∈ events, ∀ block allocates, event = .written block allocates →
    allocates = true
  /-- What the rebuild is asked for, and what its walk finds. -/
  history : HistoryContext
  expected : IndexContext
  context : expected.segment = history.segment ∧ expected.alignment = history.alignment
    ∧ expected.profile = history.profile ∧ expected.coverage = extent.coverage
  walk : ExtentWalk
  walked : walk.objects.filterMap (·.block) = extent.blocks
  evidence : walk.evidence = .ok (extent.coverage, some expected.digest)
  budget : Budget
  room : HasRoom budget stride (sealedCapacity stride extent.coverage) extent.blocks.length

namespace Sealed

variable (s : Sealed)

/-- The index the segment was fed, its last block durable and its segment sealed. -/
def live : SparseIndex := (s.fed.index.durable s.extent.end_).freeze

def rebuild : Except Errc SparseIndex :=
  rebuildSparseIndex s.history s.expected s.stride s.budget s.walk

/-- The rebuild builds the live index again. -/
def Agrees {Bytes Ref : Type} (encoder : IndexEncoder Bytes Ref) : Prop :=
  ∃ index, s.rebuild = .ok index ∧ index.fired = [] ∧ index.anchorList = s.live.anchorList
    ∧ publishSparseIndex encoder index = publishSparseIndex encoder s.live

/-- How many anchors a rebuild has the memory for: its first chunk, or its capacity. -/
def rebuilt : Nat := min (sealedCapacity s.stride s.extent.coverage) pageEntries

variable {s}

theorem isEmpty_of_nil (h : s.extent.blocks = []) :
    s.extent.coverage.physical.isEmpty = true := by
  simp [Extent.coverage, h, Span.isEmpty]

theorem not_isEmpty (h : s.extent.blocks ≠ []) :
    s.extent.coverage.physical.isEmpty = false := by
  have hlast : s.extent.blocks.getLast? = some (s.extent.blocks.getLast h) :=
    List.getLast?_eq_some_getLast h
  have hrecords := appended_records s.extent.appended _ (List.getLast_mem h)
  simp only [Extent.coverage, hlast, Option.map_some, Option.getD_some, Span.isEmpty,
    decide_eq_false_iff_not]
  omega

/-- The rebuild's walk, and what is left of the rebuild after it. -/
theorem rebuild_eq (h : s.extent.blocks ≠ []) :
    ∃ made rest, SparseIndex.make s.stride (sealedCapacity s.stride s.extent.coverage) s.budget
        = .ok (made, rest)
      ∧ s.rebuild = if (s.walk.objects.foldl SparseIndex.visit made).skipped ≠ 0
        then .error .resourceExhausted
        else .ok ((s.walk.objects.foldl SparseIndex.visit made).durable s.extent.end_).freeze := by
  obtain ⟨hsegment, halignment, hprofile, hcoverage⟩ := s.context
  obtain ⟨made, rest, hmake, -⟩ := s.room
  refine ⟨made, rest, hmake, ?_⟩
  simp only [rebuild, rebuildSparseIndex, hsegment, halignment, hprofile, hcoverage, not_isEmpty h,
    s.evidence, ne_eq, not_true, or_self, Bool.false_eq_true, if_false, hmake, bind, Except.bind]
  split
  · simp [throw, throwThe, MonadExceptOf.throw]
  · simp [pure, Except.pure, Extent.coverage]

/-- What the walk of a rebuild leaves the index with. -/
theorem walk_keeps {made : SparseIndex} {rest : Budget}
    (hmake : SparseIndex.make s.stride (sealedCapacity s.stride s.extent.coverage) s.budget
      = .ok (made, rest)) :
    ((s.stride.anchors s.extent.blocks).length ≤ s.rebuilt →
        SparseIndex.Keeps (s.stride.anchors s.extent.blocks) s.extent.end_
          (s.walk.objects.foldl SparseIndex.visit made) [])
      ∧ (s.rebuilt < (s.stride.anchors s.extent.blocks).length →
        (s.walk.objects.foldl SparseIndex.visit made).skipped ≠ 0) := by
  have hkeeps := SparseIndex.keeps_of_make (e := s.extent) hmake
  rw [← s.walked] at hkeeps
  obtain ⟨held, rfl⟩ := SparseIndex.make_spec hmake
  rw [← s.walked]
  exact hkeeps.visits (Nat.zero_le _) (Nat.min_le_left _ _) (Nat.min_le_right _ _) rfl

/-- The live index holds whatever its stride chose. -/
theorem live_eq (h : (s.stride.anchors s.extent.blocks).length ≤ maximumObjectEntries) :
    s.live.anchorList = s.stride.anchors s.extent.blocks
      ∧ s.live.anchors = (s.stride.anchors s.extent.blocks).length ∧ s.live.fired = [] := by
  have hkeeps := SparseIndex.keeps_of_make (e := s.extent) s.made_ok
  have hcap : s.made.capacity
      = sparseIndexCapacity s.stride s.maximumDataBytes s.maximumBlocks := by
    obtain ⟨held, heq⟩ := SparseIndex.make_spec s.made_ok
    rw [heq]
  have hfunded : Live.Funded ⟨s.made, 0⟩ := by
    obtain ⟨held, heq⟩ := SparseIndex.make_spec s.made_ok
    rw [heq]
    exact ⟨Nat.zero_le _, .inr ⟨Nat.zero_le _, le_rfl⟩⟩
  rw [← s.offered] at hkeeps
  have hfed := Live.run_keeps s.fed_ok hkeeps hfunded
    (by
      rw [hcap, s.offered]
      exact s.extent.anchors_le_capacity s.data_le s.blocks_le h)
    s.memory
  rw [s.offered] at hfed
  exact hfed.durable

/-- A rebuild with no more anchors than its first chunk holds is the live index. -/
theorem agrees_of_le {Bytes Ref : Type} (encoder : IndexEncoder Bytes Ref)
    (hne : s.extent.blocks ≠ []) (h : (s.stride.anchors s.extent.blocks).length ≤ s.rebuilt) :
    s.Agrees encoder := by
  obtain ⟨made, rest, hmake, heq⟩ := rebuild_eq hne
  have hkeeps := (walk_keeps hmake).1 h
  obtain ⟨hlist, hcount, hfired⟩ := hkeeps.durable
  have hobject : (s.stride.anchors s.extent.blocks).length ≤ maximumObjectEntries :=
    h.trans ((Nat.min_le_right _ _).trans (by decide))
  obtain ⟨hlive, hanchors, -⟩ := live_eq hobject
  rw [if_neg (not_not_intro hkeeps.skipped)] at heq
  refine ⟨_, heq, hfired, hlist.trans hlive.symm, ?_⟩
  exact SparseIndex.publish_congr encoder rfl (hcount.trans hanchors.symm) (hlist.trans hlive.symm)

/-- With one more, it builds nothing, whatever its budget holds. -/
theorem rebuild_of_lt (h : s.rebuilt < (s.stride.anchors s.extent.blocks).length) :
    s.rebuild = .error .resourceExhausted := by
  have hne : s.extent.blocks ≠ [] := by
    rintro hnil
    rw [hnil] at h
    exact absurd h (Nat.not_lt_zero _)
  obtain ⟨made, rest, hmake, heq⟩ := rebuild_eq hne
  rw [heq, if_pos ((walk_keeps hmake).2 h)]

/-- **Exactly when a rebuild is the live index again**: the extent holds a block, and its stride
    chooses no more blocks than one chunk of the table and the sealed capacity hold. -/
theorem agrees_iff {Bytes Ref : Type} (encoder : IndexEncoder Bytes Ref) (s : Sealed) :
    s.Agrees encoder ↔ s.extent.blocks ≠ []
      ∧ (s.stride.anchors s.extent.blocks).length
        ≤ min (sealedCapacity s.stride s.extent.coverage) pageEntries := by
  constructor
  · rintro ⟨index, hok, -⟩
    refine ⟨?_, ?_⟩
    · intro hnil
      have hcoverage := s.context.2.2.2
      have hempty : s.rebuild = .error .invalidArgument := by
        rw [rebuild, rebuildSparseIndex, if_pos]
        rw [hcoverage]
        exact .inl (isEmpty_of_nil hnil)
      rw [hempty] at hok
      cases hok
    · by_contra hlt
      rw [rebuild_of_lt (not_le.mp hlt)] at hok
      cases hok
  · rintro ⟨hne, hle⟩
    exact agrees_of_le encoder hne hle

end Sealed

/-! ## A segment of packed blocks

One record a block, every block an anchor. -/

/-- The `k`th block of a packed segment. -/
def packedBlock (k : Nat) : Coverage where
  logical := ⟨k, k + 1⟩
  physical := ⟨k, k + 1⟩
  bytes := ⟨4096 + k * smallestBlock, 4096 + (k + 1) * smallestBlock⟩

theorem appended_packed {k n : Nat} (h : k + n ≤ noOffset) :
    Appended k k (4096 + k * smallestBlock) ((List.range' k n).map packedBlock) := by
  induction n generalizing k with
  | zero => trivial
  | succ n ih =>
    rw [List.range'_succ, List.map_cons]
    refine ⟨?_, ih (k := k + 1) (by omega)⟩
    exact { logical := rfl, physical := rfl, bytes := le_rfl,
            size := by simp only [packedBlock, Nat.succ_mul]; omega,
            dense := by simp [packedBlock], records := Nat.lt_succ_self k,
            offset := by simp only [packedBlock]; omega }

/-- The extent of `n` packed blocks. -/
def packed (n : Nat) (h : n ≤ noOffset) : Extent where
  blocks := (List.range' 0 n).map packedBlock
  origin := 0
  dataStart := 4096
  end_ := 4096 + n * smallestBlock
  appended := appended_packed (by omega)
  within := by
    intro block hb
    simp only [List.mem_map, List.mem_range'_1] at hb
    obtain ⟨k, hk, rfl⟩ := hb
    have := Nat.mul_le_mul_right smallestBlock (show k + 1 ≤ n by omega)
    simp only [packedBlock]
    omega

/-- Without a stride every block is an anchor. -/
theorem anchorsFrom_every {stride : Stride} (h : stride.bytes = 0) {last : Option (Nat × Nat)}
    {since : Nat} {blocks : List Coverage} :
    (stride.anchorsFrom last since blocks).length = blocks.length := by
  induction blocks generalizing last since with
  | nil => rfl
  | cons block rest ih =>
    have htakes : stride.takes last (since + 1) block = true := by
      unfold Stride.takes
      split
      · rfl
      · simp [h]
    rw [Stride.anchorsFrom, if_pos htakes, List.length_cons, List.length_cons, ih]

namespace Live

/-- The events of blocks appended as one group. -/
def appending (blocks : List Coverage) (b : Budget) : List Event :=
  .admit_ blocks.length b :: blocks.map fun block => .written block true

variable {blocks : List Coverage} {b : Budget}

theorem offered_appending : offered (appending blocks b) = blocks := by
  simp only [offered, appending, List.filterMap_cons, Event.block, List.filterMap_map]
  exact List.filterMap_some

theorem memory_appending : ∀ event ∈ appending blocks b, ∀ block allocates,
    event = .written block allocates → allocates = true := by
  intro event he block allocates h
  simp only [appending, List.mem_cons, List.mem_map] at he
  rcases he with rfl | ⟨_, -, rfl⟩
  · cases h
  · cases h
    rfl

theorem run_writes {live : Live} (h : blocks.length ≤ live.granted) :
    (live.run (blocks.map fun block => Event.written block true)).isSome = true := by
  induction blocks generalizing live with
  | nil => rfl
  | cons block rest ih =>
    rw [List.length_cons] at h
    have hpos : live.granted ≠ 0 := by omega
    simp only [List.map_cons, Live.run, Live.step, if_neg hpos, Option.bind_some]
    exact ih (by simp only; omega)

theorem run_appending {index : SparseIndex} (h : (index.admit_ blocks.length b).1 = none) :
    (run ⟨index, 0⟩ (appending blocks b)).isSome = true := by
  obtain ⟨e, index', b', hadmitted⟩ : ∃ e index' b', index.admit_ blocks.length b = (e, index', b') :=
    ⟨_, _, _, rfl⟩
  rw [hadmitted] at h
  subst h
  simp only [appending, Live.run, Live.step, hadmitted, Option.bind_some]
  exact run_writes (Nat.le_add_left _ _)

end Live

/-- A budget with room to spare. -/
def roomy : Budget where
  charge := id
  limit := 2 ^ 30
  tasks := 64
  localBytes := 2 ^ 30
  workloadMemory := 2 ^ 30

/-- One anchor more than a chunk holds, in a segment whose every block is one. -/
def overfull : Extent := packed 1025 (by decide)

/-- The index made for it. -/
def overfullMade : SparseIndex where
  held := ⟨16944, 16432⟩
  stride := ⟨0, 0⟩
  capacity := 1025
  chunks := 1
  admitted := 1024

def overfullEvents : List Event := Live.appending overfull.blocks roomy

theorem overfull_coverage : overfull.coverage.physical = ⟨0, 1025⟩ := by
  decide +kernel

theorem overfull_blocks : overfull.blocks.length = 1025 := by
  decide +kernel

theorem overfull_fed : (Live.run ⟨overfullMade, 0⟩ overfullEvents).isSome = true := by
  refine Live.run_appending ?_
  rw [overfull_blocks]
  rfl

/-- The segment, sealed, with nothing wrong about it. -/
def overfullSealed : Sealed where
  stride := ⟨0, 0⟩
  extent := overfull
  maximumDataBytes := 2 ^ 20
  maximumBlocks := 1025
  data_le := by decide +kernel
  blocks_le := overfull_blocks.le
  made := overfullMade
  writing := (roomy, { roomy with
    tasks := 63, localBytes := 2 ^ 30 - 16944, workloadMemory := 2 ^ 30 - 16944 })
  made_ok := rfl
  events := overfullEvents
  fed := (Live.run ⟨overfullMade, 0⟩ overfullEvents).get overfull_fed
  fed_ok := (Option.some_get _).symm
  offered := Live.offered_appending
  memory := Live.memory_appending
  history := ⟨1, 4096, 1⟩
  expected := ⟨1, overfull.coverage, 7, 4096, 1⟩
  context := ⟨rfl, rfl, rfl, rfl⟩
  walk := ⟨overfull.blocks.map fun block => ⟨some block, true⟩, .ok (overfull.coverage, some 7)⟩
  walked := by simp [List.filterMap_map]
  evidence := rfl
  budget := roomy
  room := by
    have hcapacity : sealedCapacity ⟨0, 0⟩ overfull.coverage = 1025 := by
      rw [sealedCapacity, overfull_coverage]
      rfl
    rw [hcapacity, overfull_blocks]
    exact ⟨_, _, rfl, rfl⟩

/-- **A rebuild that fails for good.** Nothing is wrong with the segment, its live index holds
    all of its 1025 anchors and the budget has room for them, and yet nothing is built. -/
theorem overfull_not_rebuilt :
    overfullSealed.rebuild = .error .resourceExhausted
      ∧ overfullSealed.live.anchorList.length = 1025 ∧ overfullSealed.live.fired = [] := by
  have hlen : (overfullSealed.stride.anchors overfullSealed.extent.blocks).length = 1025 := by
    exact (anchorsFrom_every rfl).trans overfull_blocks
  obtain ⟨hlist, -, hfired⟩ := Sealed.live_eq (s := overfullSealed) (by rw [hlen]; decide)
  refine ⟨?_, ?_, hfired⟩
  · refine Sealed.rebuild_of_lt ?_
    rw [hlen]
    exact lt_of_le_of_lt (Nat.min_le_right _ _) (by decide)
  · rw [hlist, hlen]

end KwaqueStorage.Index
