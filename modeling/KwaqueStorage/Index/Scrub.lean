import KwaqueStorage.Index.Published

/-!
# The scrub of an index

A scrub holds a published index against the blocks of its extent. It is fed a page of anchors at a time and the
blocks in file order, and it keeps of all that the anchors still to be met and how many were. Every complete
block holds a record, so the first block that does is the first.
-/

namespace KwaqueStorage.Index

open Lib

/-- `complete_block_descriptor`, as far as a scrub reads it. Its batch retains a record at least, and its bytes
    hold its envelope. -/
structure Block where
  segment : Nat
  coverage : Coverage
  logical : coverage.logical.begin_ < coverage.logical.end_
  physical : coverage.physical.begin_ < coverage.physical.end_
  bytes : coverage.bytes.begin_ < coverage.bytes.end_

/-- The anchor that names a block. -/
def Block.anchor (b : Block) : Entry := ⟨b.coverage.logical.begin_, b.coverage.bytes.begin_⟩

/-- `contains_span`. -/
def containsSpan (outer inner : Span) : Bool :=
  decide (outer.begin_ ≤ inner.begin_) && decide (inner.end_ ≤ outer.end_)

/-- `valid_entry`. -/
def validEntry (context : IndexContext) (entry : Entry) (previous : Option Entry) : Bool :=
  let covered := context.coverage
  decide (covered.logical.begin_ ≤ entry.anchor ∧ entry.anchor < covered.logical.end_)
    && decide (covered.bytes.begin_ ≤ entry.position) && decide (entry.position < covered.bytes.end_)
    && previous.all fun before => decide (before.anchor < entry.anchor) && decide (before.position < entry.position)

/-- `validate_sparse_index_anchor`. -/
def validateSparseIndexAnchor (context : IndexContext) (entry : Entry) (block : Block) : Except Errc Unit :=
  let outer := context.coverage
  let inner := block.coverage
  if block.segment ≠ context.segment then .error .wrongContext
  else if validEntry context entry none = false ∨ entry.anchor ≠ inner.logical.begin_
      ∨ entry.position ≠ inner.bytes.begin_ ∨ containsSpan outer.logical inner.logical = false
      ∨ containsSpan outer.physical inner.physical = false ∨ containsSpan outer.bytes inner.bytes = false then
    .error .malformedData
  else .ok ()

/-- `sparse_index_scrub`. -/
structure Scrub where
  context : IndexContext
  run : List Entry := []
  matched : Nat := 0

namespace Scrub

/-- `block`. -/
def block (s : Scrub) (b : Block) : Except Errc Scrub :=
  match s.run with
  | [] => .ok s
  | anchor :: rest =>
    let begin_ := b.coverage.bytes.begin_
    if begin_ < anchor.position then
      if s.matched = 0 ∧ b.coverage.logical.isEmpty = false then .error .malformedData else .ok s
    else if anchor.position < begin_ then .error .malformedData
    else do
      validateSparseIndexAnchor s.context anchor b
      return { s with run := rest, matched := s.matched + 1 }

/-- `finish`. -/
def finish (s : Scrub) (anchors : Nat) : Except Errc Unit :=
  if s.run ≠ [] ∨ s.matched ≠ anchors then .error .malformedData else .ok ()

/-- `supply`, once it is drained and while there are pages. -/
def refill (s : Scrub) : List (List Entry) → Scrub × List (List Entry)
  | [] => (s, [])
  | page :: rest => if s.run = [] then ({ s with run := page }, rest) else (s, page :: rest)

/-- The blocks of an extent, one after another. -/
def blocks : Scrub → List (List Entry) → List Block → Except Errc Scrub
  | s, _, [] => .ok s
  | s, pages, b :: rest => do
    let next ← (s.refill pages).1.block b
    next.blocks (s.refill pages).2 rest

end Scrub

/-- A scrub of a published index. -/
def scrub (p : Published) (blocks : List Block) : Except Errc Unit := do
  let s ← ({ context := p.context } : Scrub).blocks p.pages blocks
  s.finish p.anchors.length

/-- The complete blocks of the extent an index is about, in file order. -/
structure ExtentBlocks (context : IndexContext) where
  blocks : List Block
  ordered : blocks.Pairwise fun b later => b.coverage.bytes.end_ ≤ later.coverage.bytes.begin_
  inside : ∀ b ∈ blocks, b.segment = context.segment ∧ containsSpan context.coverage.logical b.coverage.logical = true
    ∧ containsSpan context.coverage.physical b.coverage.physical = true
    ∧ containsSpan context.coverage.bytes b.coverage.bytes = true

/-! ## What it accepts -/

/-- The anchors name blocks, in order; the first of them the first block, if none was met before. -/
def Named (anchors : List Entry) (matched : Nat) (blocks : List Block) : Prop :=
  ∃ chosen : List Block, chosen.Sublist blocks ∧ anchors = chosen.map Block.anchor
    ∧ (matched = 0 → anchors ≠ [] → chosen.head? = blocks.head?)

section Accepts

variable {context : IndexContext} {anchor : Entry} {anchors : List Entry} {b : Block} {rest : List Block} {matched : Nat}

theorem named_nil (blocks : List Block) : Named [] matched blocks :=
  ⟨[], List.nil_sublist _, rfl, fun _ h => absurd rfl h⟩

/-- A block of the extent is named by its own anchor and no other. -/
theorem validate_iff (hsegment : b.segment = context.segment)
    (hlogical : containsSpan context.coverage.logical b.coverage.logical = true)
    (hphysical : containsSpan context.coverage.physical b.coverage.physical = true)
    (hbytes : containsSpan context.coverage.bytes b.coverage.bytes = true) :
    validateSparseIndexAnchor context anchor b = .ok () ↔ anchor = b.anchor := by
  have hrecords := b.logical
  have hfile := b.bytes
  obtain ⟨hlogicalBegin, hlogicalEnd⟩ := Bool.and_eq_true_iff.mp hlogical
  obtain ⟨hbytesBegin, hbytesEnd⟩ := Bool.and_eq_true_iff.mp hbytes
  have hlogicalBegin := of_decide_eq_true hlogicalBegin
  have hlogicalEnd := of_decide_eq_true hlogicalEnd
  have hbytesBegin := of_decide_eq_true hbytesBegin
  have hbytesEnd := of_decide_eq_true hbytesEnd
  unfold validateSparseIndexAnchor
  dsimp only
  rw [if_neg (not_not.mpr hsegment), hlogical, hphysical, hbytes]
  constructor
  · intro h
    split at h
    next => cases h
    next hfine =>
      simp only [not_or, not_not] at hfine
      obtain ⟨_, hanchor, hposition, _⟩ := hfine
      obtain ⟨offset, position⟩ := anchor
      exact congrArg₂ Entry.mk hanchor hposition
  · rintro rfl
    rw [if_neg]
    simp only [not_or, not_not]
    refine ⟨?_, rfl, rfl, Bool.noConfusion, Bool.noConfusion, Bool.noConfusion⟩
    unfold validEntry Block.anchor
    simp only [Option.all_none, Bool.and_true, Bool.not_eq_false, Bool.and_eq_true, decide_eq_true_eq]
    omega

/-- Later blocks begin later. -/
theorem begins_before (hordered : (b :: rest).Pairwise fun b later => b.coverage.bytes.end_ ≤ later.coverage.bytes.begin_)
    {later : Block} (hlater : later ∈ rest) : b.coverage.bytes.begin_ < later.coverage.bytes.begin_ :=
  Nat.lt_of_lt_of_le b.bytes ((List.pairwise_cons.mp hordered).1 later hlater)

/-- The anchor is of a later block. -/
theorem named_later (hnot : anchor.position ≠ b.coverage.bytes.begin_) (hmatched : matched ≠ 0) :
    Named (anchor :: anchors) matched (b :: rest) ↔ Named (anchor :: anchors) matched rest := by
  constructor
  · rintro ⟨chosen, hchosen, hnames, _⟩
    refine ⟨chosen, ?_, hnames, fun hzero => absurd hzero hmatched⟩
    rcases List.sublist_cons_iff.mp hchosen with hlater | ⟨chosen', rfl, _⟩
    · exact hlater
    · rw [List.map_cons, List.cons.injEq] at hnames
      exact absurd (congrArg Entry.position hnames.1) hnot
  · rintro ⟨chosen, hchosen, hnames, _⟩
    exact ⟨chosen, hchosen.cons b, hnames, fun hzero => absurd hzero hmatched⟩

/-- The anchor is of this block. -/
theorem named_here (hordered : (b :: rest).Pairwise fun b later => b.coverage.bytes.end_ ≤ later.coverage.bytes.begin_)
    (hat : anchor.position = b.coverage.bytes.begin_) :
    Named (anchor :: anchors) matched (b :: rest) ↔ anchor = b.anchor ∧ Named anchors (matched + 1) rest := by
  constructor
  · rintro ⟨chosen, hchosen, hnames, _⟩
    rcases List.sublist_cons_iff.mp hchosen with hlater | ⟨chosen', rfl, hrest⟩
    · -- a later block begins later than the anchor points
      cases chosen with
      | nil => cases hnames
      | cons c chosen' =>
        rw [List.map_cons, List.cons.injEq] at hnames
        have hpoints : anchor.position = c.coverage.bytes.begin_ := congrArg Entry.position hnames.1
        have hbefore := begins_before hordered (hlater.subset (List.mem_cons_self ..))
        omega
    · rw [List.map_cons, List.cons.injEq] at hnames
      exact ⟨hnames.1, chosen', hrest, hnames.2, fun hzero => absurd hzero (Nat.succ_ne_zero _)⟩
  · rintro ⟨rfl, chosen, hchosen, hnames, _⟩
    exact ⟨b :: chosen, hchosen.cons_cons b, by rw [hnames, List.map_cons], fun _ _ => rfl⟩

/-- No block is left where the anchor points. -/
theorem not_named (hordered : (b :: rest).Pairwise fun b later => b.coverage.bytes.end_ ≤ later.coverage.bytes.begin_)
    (hbefore : anchor.position < b.coverage.bytes.begin_) : ¬ Named (anchor :: anchors) matched (b :: rest) := by
  rintro ⟨chosen, hchosen, hnames, _⟩
  cases chosen with
  | nil => cases hnames
  | cons c chosen' =>
    rw [List.map_cons, List.cons.injEq] at hnames
    have hpoints : anchor.position = c.coverage.bytes.begin_ := congrArg Entry.position hnames.1
    rcases List.mem_cons.mp (hchosen.subset (List.mem_cons_self ..)) with rfl | hlater
    · omega
    · have hlt := begins_before hordered hlater
      omega

/-- The first anchor points past the first block. -/
theorem not_named_first (hbehind : b.coverage.bytes.begin_ < anchor.position) :
    ¬ Named (anchor :: anchors) 0 (b :: rest) := by
  rintro ⟨chosen, _, hnames, hfirst⟩
  have hhead := hfirst rfl (List.cons_ne_nil _ _)
  cases chosen with
  | nil => cases hnames
  | cons c chosen' =>
    obtain rfl := Option.some.inj hhead
    rw [List.map_cons, List.cons.injEq] at hnames
    have hpoints : anchor.position = c.coverage.bytes.begin_ := congrArg Entry.position hnames.1
    omega

namespace Scrub

/-- The anchors still to be met. -/
def ahead (s : Scrub) (pages : List (List Entry)) : List Entry := s.run ++ pages.flatten

/-- Supplying loses nothing, and leaves nothing to meet only when there is nothing. -/
theorem refill_spec (s : Scrub) {pages : List (List Entry)} (hfilled : ∀ page ∈ pages, page ≠ []) :
    (s.refill pages).1.ahead (s.refill pages).2 = s.ahead pages ∧ (s.refill pages).1.matched = s.matched
      ∧ (s.refill pages).1.context = s.context ∧ (∀ page ∈ (s.refill pages).2, page ≠ [])
      ∧ ((s.refill pages).1.run = [] → s.ahead pages = []) := by
  unfold ahead
  cases pages with
  | nil =>
    refine ⟨rfl, rfl, rfl, hfilled, ?_⟩
    intro hrun
    rw [List.flatten_nil, List.append_nil]
    exact hrun
  | cons page rest =>
    have hpage := hfilled page (List.mem_cons_self ..)
    rw [refill]
    split
    next hdrained =>
      refine ⟨?_, rfl, rfl, fun q hq => hfilled q (List.mem_cons_of_mem _ hq), fun hnil => absurd hnil hpage⟩
      rw [hdrained, List.nil_append, List.flatten_cons]
    next hmore => exact ⟨rfl, rfl, rfl, hfilled, fun hnil => absurd hnil hmore⟩

/-- **One block**: the scrub goes on exactly if the anchors to be met can still be met by it and those after
    it, and then by those after it. -/
theorem block_spec {s : Scrub} {pages : List (List Entry)}
    (hordered : (b :: rest).Pairwise fun b later => b.coverage.bytes.end_ ≤ later.coverage.bytes.begin_)
    (hinside : b.segment = s.context.segment ∧ containsSpan s.context.coverage.logical b.coverage.logical = true
      ∧ containsSpan s.context.coverage.physical b.coverage.physical = true
      ∧ containsSpan s.context.coverage.bytes b.coverage.bytes = true)
    (hrun : s.run = [] → s.ahead pages = []) :
    (∃ next, s.block b = .ok next ∧ next.context = s.context
        ∧ next.matched + (next.ahead pages).length = s.matched + (s.ahead pages).length
        ∧ (Named (s.ahead pages) s.matched (b :: rest) ↔ Named (next.ahead pages) next.matched rest))
      ∨ (∃ code, s.block b = .error code) ∧ ¬ Named (s.ahead pages) s.matched (b :: rest) := by
  unfold block
  cases heq : s.run with
  | nil =>
    left
    refine ⟨s, rfl, rfl, rfl, ?_⟩
    rw [hrun heq]
    exact iff_of_true (named_nil _) (named_nil _)
  | cons anchor anchors =>
    have hahead : s.ahead pages = anchor :: (anchors ++ pages.flatten) := by
      unfold ahead
      rw [heq, List.cons_append]
    dsimp only
    split
    next hbehind =>
      split
      next hfirst =>
        right
        refine ⟨⟨_, rfl⟩, ?_⟩
        rw [hahead, hfirst.1]
        exact not_named_first hbehind
      next hfirst =>
        left
        refine ⟨s, rfl, rfl, rfl, ?_⟩
        have hmatched : s.matched ≠ 0 := by
          intro hzero
          refine hfirst ⟨hzero, ?_⟩
          unfold Span.isEmpty
          exact decide_eq_false (Nat.ne_of_lt b.logical)
        rw [hahead]
        exact named_later (Nat.ne_of_gt hbehind) hmatched
    next hnotBehind =>
      split
      next hbefore =>
        right
        refine ⟨⟨_, rfl⟩, ?_⟩
        rw [hahead]
        exact not_named hordered hbefore
      next hnotBefore =>
        have hat : anchor.position = b.coverage.bytes.begin_ := by omega
        have hvalid := @validate_iff s.context anchor b hinside.1 hinside.2.1 hinside.2.2.1 hinside.2.2.2
        cases hanswer : validateSparseIndexAnchor s.context anchor b with
        | ok =>
          left
          refine ⟨{ s with run := anchors, matched := s.matched + 1 }, rfl, rfl, ?_, ?_⟩
          · rw [hahead, List.length_cons]
            show s.matched + 1 + (anchors ++ pages.flatten).length = _
            omega
          · rw [hahead, named_here hordered hat]
            exact and_iff_right (hvalid.mp hanswer)
        | error code =>
          right
          refine ⟨⟨code, rfl⟩, ?_⟩
          rw [hahead, named_here hordered hat]
          rintro ⟨hnamed, _⟩
          rw [hvalid.mpr hnamed] at hanswer
          cases hanswer

/-- **All blocks**: the scrub accepts exactly if the anchors to be met name blocks, in order. -/
theorem blocks_spec (blocks : List Block) : ∀ (s : Scrub) (pages : List (List Entry)),
    blocks.Pairwise (fun b later => b.coverage.bytes.end_ ≤ later.coverage.bytes.begin_) →
    (∀ b ∈ blocks, b.segment = s.context.segment ∧ containsSpan s.context.coverage.logical b.coverage.logical = true
      ∧ containsSpan s.context.coverage.physical b.coverage.physical = true
      ∧ containsSpan s.context.coverage.bytes b.coverage.bytes = true) →
    (∀ page ∈ pages, page ≠ []) →
    ((s.blocks pages blocks >>= fun s' => s'.finish (s.matched + (s.ahead pages).length)) = .ok ()
      ↔ Named (s.ahead pages) s.matched blocks) := by
  induction blocks with
  | nil =>
    intro s pages _ _ hfilled
    show s.finish (s.matched + (s.ahead pages).length) = .ok () ↔ _
    unfold finish
    constructor
    · intro h
      split at h
      next => cases h
      next hfine =>
        have hmatched : s.matched = s.matched + (s.ahead pages).length := by
          by_contra hne
          exact hfine (.inr hne)
        have hnil : s.ahead pages = [] := List.length_eq_zero_iff.mp (by omega)
        rw [hnil]
        exact named_nil _
    · rintro ⟨chosen, hchosen, hnames, _⟩
      obtain rfl := List.sublist_nil.mp hchosen
      replace hnames : s.ahead pages = [] := hnames
      rw [if_neg]
      rw [hnames]
      rintro (hrun | hmatched)
      · exact hrun (List.append_eq_nil_iff.mp hnames).1
      · exact hmatched rfl
  | cons b rest ih =>
    intro s pages hordered hinside hfilled
    obtain ⟨hahead, hmatched, hcontext, hfilled', hdrained⟩ := s.refill_spec hfilled
    have hb := hinside b (List.mem_cons_self ..)
    rw [← hcontext] at hb
    rw [← hahead] at hdrained ⊢
    rw [← hmatched]
    show ((((s.refill pages).1.block b) >>= fun next => next.blocks (s.refill pages).2 rest) >>= _) = _ ↔ _
    rcases @block_spec b rest _ (s.refill pages).2 hordered hb hdrained with
      ⟨next, hnext, hsame, hcount, hnamed⟩ | ⟨⟨code, hrefused⟩, hnot⟩
    · rw [hnext, hnamed, ← hcount]
      refine ih next (s.refill pages).2 (List.pairwise_cons.mp hordered).2 ?_ hfilled'
      intro later hlater
      rw [hsame, hcontext]
      exact hinside later (List.mem_cons_of_mem _ hlater)
    · rw [hrefused]
      exact iff_of_false nofun hnot

end Scrub

end Accepts

/-- **A scrub accepts an index** exactly if its anchors name blocks of the extent, in order, and the first of
    them the first block that holds a record. -/
theorem scrub_iff (p : Published) (extent : ExtentBlocks p.context) :
    scrub p extent.blocks = .ok () ↔ ∃ chosen : List Block, chosen.Sublist extent.blocks
      ∧ p.anchors = chosen.map Block.anchor
      ∧ chosen.head? = extent.blocks.find? fun b => !b.coverage.logical.isEmpty := by
  have hrecords : extent.blocks.find? (fun b => !b.coverage.logical.isEmpty) = extent.blocks.head? := by
    cases extent.blocks with
    | nil => rfl
    | cons b rest =>
      have hsome : (!b.coverage.logical.isEmpty) = true := by
        unfold Span.isEmpty
        rw [decide_eq_false (Nat.ne_of_lt b.logical)]
        rfl
      rw [List.find?_cons, hsome, List.head?_cons]
  -- an index without an anchor is of an extent without a record, and then without a block
  have hempty : p.anchors = [] → extent.blocks = [] := by
    intro hnil
    have hnone := p.counted.mp hnil
    cases hblocks : extent.blocks with
    | nil => rfl
    | cons b rest =>
      obtain ⟨_, _, hphysical, _⟩ := extent.inside b (hblocks ▸ List.mem_cons_self ..)
      obtain ⟨hbegin, hend⟩ := Bool.and_eq_true_iff.mp hphysical
      have hbegin := of_decide_eq_true hbegin
      have hend := of_decide_eq_true hend
      have hsame : p.context.coverage.physical.begin_ = p.context.coverage.physical.end_ := of_decide_eq_true hnone
      have hheld := b.physical
      omega
  have hspec := Scrub.blocks_spec extent.blocks { context := p.context } p.pages extent.ordered extent.inside p.filled
  have htotal : ({ context := p.context } : Scrub).matched
      + (({ context := p.context } : Scrub).ahead p.pages).length = p.anchors.length := Nat.zero_add _
  rw [htotal] at hspec
  rw [hrecords]
  refine hspec.trans ⟨?_, ?_⟩
  · rintro ⟨chosen, hchosen, hnames, hfirst⟩
    replace hnames : p.anchors = chosen.map Block.anchor := hnames
    refine ⟨chosen, hchosen, hnames, ?_⟩
    by_cases hnil : p.anchors = []
    · have hnone := hempty hnil
      rw [hnone] at hchosen ⊢
      rw [List.sublist_nil.mp hchosen]
    · exact hfirst rfl hnil
  · rintro ⟨chosen, hchosen, hnames, hfirst⟩
    exact ⟨chosen, hchosen, hnames, fun _ _ => hfirst⟩

/-- **Routing in a sparse index.** In memory, whatever it was fed, an index finds the last anchor at or before an
    offset and the first past it, as a walk over its durable anchors does, and its pages are these anchors.
    Published in pages under a root, it is routed to the page that holds that last anchor, and answers with it
    if that page can be read. And a scrub accepts it exactly if its anchors name blocks of the extent, in order
    and from the first that holds a record. -/
theorem sparse_index_routes {stride : Stride} {capacity : Nat} {i : SparseIndex}
    (hreach : (SparseIndex.system stride capacity).Reachable i) (hfired : i.fired = []) (p : Published)
    {readIndex : Nat → Except Errc (List Entry)}
    (hread : ∀ ordinal page, readIndex ordinal = .ok page → p.pages[ordinal]? = some page)
    (extent : ExtentBlocks p.context) (target end_ : Nat) :
    (i.find target end_ = walked i.anchorList target end_ ∧ i.after target = firstPast i.anchorList target
      ∧ ((List.range i.pages).map i.page).flatten = i.anchorList)
    ∧ ((lastUpTo p.anchors target = none ∧ findPublishedAnchor (some p.root) readIndex target = .ok none)
      ∨ ∃ ordinal page anchor, findSparseIndexPage p.root.firstAnchors target = some ordinal
        ∧ p.pages[ordinal]? = some page ∧ anchor ∈ page ∧ lastUpTo p.anchors target = some anchor
        ∧ findPublishedAnchor (some p.root) readIndex target = (readIndex ordinal).map fun _ =>
          some ⟨anchor, ((firstPast page target).map Entry.position).getD p.context.coverage.bytes.end_⟩)
    ∧ (scrub p extent.blocks = .ok () ↔ ∃ chosen : List Block, chosen.Sublist extent.blocks
      ∧ p.anchors = chosen.map Block.anchor
      ∧ chosen.head? = extent.blocks.find? fun b => !b.coverage.logical.isEmpty) := by
  have harranged := SparseIndex.arranged_of_reachable hreach hfired
  exact ⟨⟨harranged.find_eq, harranged.after_eq, harranged.pages_flatten⟩, p.find_spec hread target,
    scrub_iff p extent⟩

/-- Three blocks of one record, and what they cover. -/
def someBlock (n : Nat) : Block where
  segment := 7
  coverage := ⟨⟨10 + n, 11 + n⟩, ⟨n, n + 1⟩, ⟨4096 + 512 * n, 4096 + 512 * (n + 1)⟩⟩
  logical := by dsimp only; omega
  physical := Nat.lt_succ_self n
  bytes := by dsimp only; omega

def someContext : IndexContext := ⟨7, ⟨⟨10, 13⟩, ⟨0, 3⟩, ⟨4096, 5632⟩⟩, 0, 512, 1⟩

/-- The first and the last of them are anchors, each in a page of its own. -/
def somePublished : Published where
  context := someContext
  pages := [[⟨10, 4096⟩], [⟨12, 5120⟩]]
  filled := by decide
  ordered := by unfold Ordered; decide
  counted := by decide

def someExtent : ExtentBlocks someContext where
  blocks := [someBlock 0, someBlock 1, someBlock 2]
  ordered := by
    refine List.pairwise_cons.mpr ⟨?_, List.pairwise_cons.mpr ⟨?_, List.pairwise_singleton _ _⟩⟩
    · rintro b (_ | ⟨_, _ | ⟨_, ⟨⟩⟩⟩) <;> decide
    · rintro b (_ | ⟨_, ⟨⟩⟩)
      decide
  inside := by
    rintro b (_ | ⟨_, _ | ⟨_, _ | ⟨_, ⟨⟩⟩⟩⟩) <;> decide

/-- Its pages, read one by one. -/
def someRead (ordinal : Nat) : Except Errc (List Entry) :=
  match somePublished.pages[ordinal]? with
  | some page => .ok page
  | none => .error .notFound

def someBudget : Budget := ⟨id, 1000000, 8, 1000000, 1000000, false⟩

def someFed : List SparseIndex.Fed :=
  [.written (someBlock 0).coverage true, .written (someBlock 1).coverage true, .written (someBlock 2).coverage true,
    .durable 5120]

theorem sparse_index_routes_some : ∃ i : SparseIndex,
    ((SparseIndex.system ⟨0, 0⟩ 100).Reachable i ∧ i.anchorList = [⟨10, 4096⟩, ⟨11, 4608⟩])
      ∧ i.find 11 5120 = some ⟨⟨11, 4608⟩, 5120⟩ ∧ i.after 10 = some ⟨11, 4608⟩
      ∧ lastUpTo somePublished.anchors 11 = some ⟨10, 4096⟩
      ∧ scrub somePublished someExtent.blocks = .ok () := by
  have hrun : ∃ i, (∃ b', SparseIndex.make ⟨0, 0⟩ 100 someBudget = .ok (i, b'))
      ∧ ∃ q ∈ (SparseIndex.system ⟨0, 0⟩ 100).exec i someFed, q.fired = []
        ∧ q.anchorList = [⟨10, 4096⟩, ⟨11, 4608⟩] := by
    refine ⟨_, ⟨_, rfl⟩, ?_⟩
    decide +kernel
  obtain ⟨start, ⟨b', hmake⟩, i, hi, hfired, hanchors⟩ := hrun
  have hreach : (SparseIndex.system ⟨0, 0⟩ 100).Reachable i := System.Run.of_exec (.init ⟨someBudget, b', hmake⟩) hi
  have hread : ∀ ordinal page, someRead ordinal = .ok page → somePublished.pages[ordinal]? = some page := by
    intro ordinal page h
    unfold someRead at h
    split at h
    next found hpage =>
      rw [hpage]
      exact congrArg some (Except.ok.inj h)
    next => cases h
  have hroutes := sparse_index_routes hreach hfired somePublished hread someExtent
  obtain ⟨⟨hfind, _, _⟩, _, hscrub⟩ := hroutes 11 5120
  obtain ⟨⟨_, hafter, _⟩, _, _⟩ := hroutes 10 5120
  refine ⟨i, ⟨hreach, hanchors⟩, ?_, ?_, ?_, hscrub.mpr ⟨[someBlock 0, someBlock 2], ?_, rfl, rfl⟩⟩
  · rw [hfind, hanchors]
    rfl
  · rw [hafter, hanchors]
    rfl
  · rfl
  · exact ((List.Sublist.refl [someBlock 2]).cons (someBlock 1)).cons_cons (someBlock 0)

end KwaqueStorage.Index
