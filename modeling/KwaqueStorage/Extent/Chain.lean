import KwaqueStorage.Extent.Verifier

/-!
# Valid extents

An extent is valid when each of its objects follows the ones before it: it decodes where they end,
a block continues their logical and physical spans and does not go back in append time, and a
footer that names the bytes before it names their boundary. The boundary of a list of objects is
read off the whole list (`boundaryAfter`), and so is where it ends.

The verifier keeps that boundary and nothing else. `Holds` says so, `add_holds` is one object, and
`feed_first_offender` is every sequence of objects: all are accepted and the state is the
boundary of all, or the first that does not follow is refused and nothing is answered afterwards.
-/

namespace KwaqueStorage.Extent

/-- What is offered to a verifier: bytes, or a codec-owned value. -/
inductive Object {Policy : Type} (codec : Codec Policy)
  | blockBytes (bytes : List UInt8) (expected : BatchExpectation)
  | block (block : SegmentBlock codec) (expected : BatchExpectation)
  | footerBytes (bytes : List UInt8) (referenced : Option VerifiedExtent)
  | footer (footer : EncodedFooter codec) (referenced : Option VerifiedExtent)

/-- What an accepted object was decoded to. -/
inductive Content
  | block (descriptor : Descriptor)
  | footer (footer : Footer)
  deriving DecidableEq

/-- An accepted object. -/
structure Accepted where
  bytes : List UInt8
  content : Content
  deriving DecidableEq

/-- What a walk is given once: the extent it is to cover, and how. -/
structure Scope (Policy : Type) where
  history : History
  expected : Coverage
  policy : Policy
  kind : LayoutKind

section

variable {Policy : Type} {codec : Codec Policy}

/-- The same object, offered as its bytes. -/
def Object.plain : Object codec → Object codec
  | .blockBytes bytes expected => .blockBytes bytes expected
  | .block typed expected => .blockBytes typed.bytes expected
  | .footerBytes bytes referenced => .footerBytes bytes referenced
  | .footer typed referenced => .footerBytes typed.bytes referenced

/-- An object is offered as a block or as a footer. -/
theorem Object.plain_cases (o : Object codec) :
    (∃ bytes expected, o.plain = .blockBytes bytes expected)
      ∨ ∃ bytes referenced, o.plain = .footerBytes bytes referenced := by
  cases o <;> simp [Object.plain]

section

variable [DecidableEq Policy]

/-- The add of `extent_verifier` an object enters through. -/
def Verifier.add (v : Verifier Policy) (policy : Policy) :
    Object codec → Except CodecError Unit × Verifier Policy
  | .blockBytes bytes expected => v.addBlockBytes codec policy bytes expected
  | .block block expected => v.addBlock codec policy block expected
  | .footerBytes bytes referenced => v.addFooterBytes codec policy bytes referenced
  | .footer footer referenced => v.addFooter codec policy footer referenced

/-! ## The typed path -/

/-- A block whose validation is reused decodes to its own descriptor. -/
theorem decodeBlock_of_reuses {v : Verifier Policy} {block : SegmentBlock codec}
    {expected : BatchExpectation} (h : v.reusesBlock codec block expected = true) :
    codec.decodeBlock v.policy block.bytes (v.blockExpectation expected) = .ok block.descriptor := by
  simp only [Verifier.reusesBlock, Bool.and_eq_true, decide_eq_true_eq] at h
  obtain ⟨⟨⟨⟨⟨⟨⟨hpolicy, hcontext⟩, hposition⟩, hphysical⟩, halignment⟩, hstart⟩, -⟩, hmeets⟩ := h
  obtain ⟨batch, hdecoded⟩ := block.decoded
  rw [← hpolicy]
  refine codec.block_again _ _ _ _ _ hdecoded ?_ hstart.symm rfl hmeets
  simp [Verifier.blockExpectation, hcontext, hposition, hphysical, halignment]

/-- A footer whose validation is reused decodes to its own descriptor. -/
theorem decodeFooter_of_reuses {v : Verifier Policy} {footer : EncodedFooter codec}
    (h : v.reusesFooter codec footer = true) :
    codec.decodeFooter v.policy footer.bytes ⟨v.history, v.position⟩ = .ok footer.descriptor := by
  simp only [Verifier.reusesFooter, Bool.and_eq_true, decide_eq_true_eq] at h
  obtain ⟨⟨hpolicy, hhistory⟩, hposition⟩ := h
  rw [← hpolicy, ← hhistory, ← hposition]
  exact footer.decoded

/-- **The typed path is the byte path**: a codec-owned object leaves the verifier, and answers,
    as its bytes would. -/
theorem add_plain (v : Verifier Policy) (policy : Policy) (o : Object codec) :
    v.add policy o = v.add policy o.plain := by
  cases o with
  | blockBytes bytes expected => rfl
  | footerBytes bytes referenced => rfl
  | block block expected =>
    simp only [Verifier.add, Object.plain, Verifier.addBlock, Verifier.addBlockBytes]
    by_cases hreuse : v.reusesBlock codec block expected = true
    · rw [decodeBlock_of_reuses hreuse, if_pos hreuse]
    · rw [if_neg hreuse]
  | footer footer referenced =>
    simp only [Verifier.add, Object.plain, Verifier.addFooter, Verifier.addFooterBytes]
    by_cases hreuse : v.reusesFooter codec footer = true
    · rw [decodeFooter_of_reuses hreuse, if_pos hreuse]
    · rw [if_neg hreuse]

end

/-! ## The boundary of a list of objects -/

/-- The blocks among accepted objects. -/
def blocks (accepted : List Accepted) : List Descriptor :=
  accepted.filterMap fun a =>
    match a.content with
    | .block d => some d
    | .footer _ => none

/-- The bytes of accepted objects, back to back. -/
def stored (accepted : List Accepted) : List UInt8 := accepted.flatMap Accepted.bytes

/-- The times of a list of blocks. -/
def timesOf : List Descriptor → Times
  | [] => {}
  | d :: rest =>
    { firstAppend := d.stamps.appendTime
      maxAppend := rest.foldl (fun t b => max t b.stamps.appendTime) d.stamps.appendTime
      maxRecord := rest.foldl (fun t b => max t b.batch.maxRecordTime) d.batch.maxRecordTime }

namespace Scope

/-- Where the bytes of accepted objects end. -/
def positionAfter (s : Scope Policy) (accepted : List Accepted) : Nat :=
  s.expected.bytes.begin_ + (stored accepted).length

/-- Where the retained records of accepted objects end. -/
def physicalAfter (s : Scope Policy) (accepted : List Accepted) : Nat :=
  ((blocks accepted).getLast?.map fun d => d.physical.end_).getD s.expected.physical.begin_

/-- Where the logical slots of accepted objects end. -/
def logicalAfter (s : Scope Policy) (accepted : List Accepted) : Nat :=
  ((blocks accepted).getLast?.map fun d => d.batch.logical.end_).getD s.expected.logical.begin_

/-- The boundary of accepted objects. -/
def boundaryAfter (codec : Codec Policy) (s : Scope Policy) (accepted : List Accepted) :
    BoundaryFields where
  coverage := ⟨⟨s.expected.logical.begin_, s.logicalAfter accepted⟩,
    ⟨s.expected.physical.begin_, s.physicalAfter accepted⟩,
    ⟨s.expected.bytes.begin_, s.positionAfter accepted⟩⟩
  blockCount := (blocks accepted).length
  lastBlock := (blocks accepted).getLast?.map Descriptor.coverage
  times := timesOf (blocks accepted)
  dataCrc := codec.crc 0 (stored accepted)

/-- The placement of a block after accepted objects. -/
def expectation (s : Scope Policy) (accepted : List Accepted) (batch : BatchExpectation) :
    BlockExpectation :=
  ⟨⟨s.history.segment, s.history.alignment, s.physicalAfter accepted, s.positionAfter accepted⟩,
    s.history.dataStart, batch, s.history.profile⟩

end Scope

/-- **A block that follows** accepted objects: it decodes where they end and continues them. In an
    initial append it is the segment's own, dense, and begins where their logical span ends. -/
structure FollowsBlock (codec : Codec Policy) (s : Scope Policy) (accepted : List Accepted)
    (bytes : List UInt8) (expected : BatchExpectation) (d : Descriptor) : Prop where
  nonempty : bytes ≠ []
  within : s.positionAfter accepted + bytes.length ≤ s.expected.bytes.end_
  decoded : codec.decodeBlock s.policy bytes (s.expectation accepted expected) = .ok d
  extent : d.bytes.end_ = s.positionAfter accepted + bytes.length
  physical_within : d.physical.end_ ≤ s.expected.physical.end_
  logical_after : s.logicalAfter accepted ≤ d.batch.logical.begin_
  logical_within : d.batch.logical.end_ ≤ s.expected.logical.end_
  initial : s.kind = .initialAppend →
    d.batch.binding.segment = s.history.segment.segment
      ∧ d.batch.binding.generation = s.history.segment.generation
      ∧ d.batch.logical.begin_ = s.logicalAfter accepted
      ∧ d.batch.retainedCount = d.batch.originalCount
  room : (blocks accepted).length < maxCount
  times : ∀ b ∈ blocks accepted, b.stamps.appendTime ≤ d.stamps.appendTime

/-- **A footer that follows** accepted objects: it decodes where they end, and where it names
    their bytes or comes with evidence, it names their boundary or that evidence. -/
structure FollowsFooter (codec : Codec Policy) (s : Scope Policy) (accepted : List Accepted)
    (bytes : List UInt8) (referenced : Option VerifiedExtent) (f : Footer) : Prop where
  nonempty : bytes ≠ []
  within : s.positionAfter accepted + bytes.length ≤ s.expected.bytes.end_
  decoded : codec.decodeFooter s.policy bytes ⟨s.history, s.positionAfter accepted⟩ = .ok f
  evidence : ∀ e ∈ referenced, f.location.history = e.context ∧ f.boundary = e.boundary
  named : f.boundary.coverage.bytes = ⟨s.expected.bytes.begin_, s.positionAfter accepted⟩ →
    f.boundary = s.boundaryAfter codec accepted
  extent : f.extent.end_ = s.positionAfter accepted + bytes.length

/-- Whether an object follows accepted objects, and as what. -/
def Follows (s : Scope Policy) (accepted : List Accepted) (o : Object codec) (a : Accepted) :
    Prop :=
  match o.plain, a.content with
  | .blockBytes bytes expected, .block d =>
    a.bytes = bytes ∧ FollowsBlock codec s accepted bytes expected d
  | .footerBytes bytes referenced, .footer f =>
    a.bytes = bytes ∧ FollowsFooter codec s accepted bytes referenced f
  | _, _ => False

/-- **Valid**: each object follows the ones before it. -/
inductive Valid (s : Scope Policy) : List (Object codec) → List Accepted → Prop
  | nil : Valid s [] []
  | snoc {objects : List (Object codec)} {accepted : List Accepted} {o : Object codec}
      {a : Accepted} : Valid s objects accepted → Follows s accepted o a →
      Valid s (objects ++ [o]) (accepted ++ [a])

/-! ## What an object is tested for -/

/-- What `takeBlock` tests. -/
structure Verifier.Takes (v : Verifier Policy) (bytes : List UInt8) (d : Descriptor) : Prop where
  initial : v.kind = .initialAppend →
    d.batch.binding.segment = v.history.segment.segment
      ∧ d.batch.binding.generation = v.history.segment.generation
      ∧ d.batch.logical.begin_ = v.logical
      ∧ d.batch.retainedCount = d.batch.originalCount
  extent : d.bytes.end_ = v.position + bytes.length
  physical_within : d.physical.end_ ≤ v.expected.physical.end_
  logical_after : v.logical ≤ d.batch.logical.begin_
  logical_within : d.batch.logical.end_ ≤ v.expected.logical.end_
  room : v.count ≠ maxCount
  times : v.count ≠ 0 → v.times.maxAppend ≤ d.stamps.appendTime

/-- The fields of a verifier after one more block, before its bytes. -/
def Verifier.withBlock (v : Verifier Policy) (d : Descriptor) : Verifier Policy :=
  { v with
    times := v.timesWith d
    count := v.count + 1
    logical := d.coverage.logical.end_
    physical := d.coverage.physical.end_
    last := some d.coverage }

variable {bytes : List UInt8}

theorem takeBlock_of_takes {v : Verifier Policy} {d : Descriptor} (h : v.Takes bytes d) :
    v.takeBlock codec bytes d = .ok ((v.withBlock d).absorb codec bytes) := by
  have hown : ¬ (v.kind = .initialAppend
      ∧ (d.batch.binding.segment ≠ v.history.segment.segment
        ∨ d.batch.binding.generation ≠ v.history.segment.generation)) := by
    rintro ⟨hkind, hbad⟩
    obtain ⟨hsegment, hgeneration, -, -⟩ := h.initial hkind
    rcases hbad with hbad | hbad
    · exact hbad hsegment
    · exact hbad hgeneration
  have hshape : ¬ (d.coverage.bytes.end_ ≠ v.position + bytes.length
      ∨ v.expected.physical.end_ < d.coverage.physical.end_
      ∨ d.coverage.logical.begin_ < v.logical
      ∨ v.expected.logical.end_ < d.coverage.logical.end_
      ∨ (v.kind = .initialAppend
        ∧ (d.coverage.logical.begin_ ≠ v.logical
          ∨ d.batch.retainedCount ≠ d.batch.originalCount))) := by
    rintro (hbad | hbad | hbad | hbad | ⟨hkind, hbad⟩)
    · exact hbad h.extent
    · exact absurd h.physical_within (Nat.not_le.mpr hbad)
    · exact absurd h.logical_after (Nat.not_le.mpr hbad)
    · exact absurd h.logical_within (Nat.not_le.mpr hbad)
    · obtain ⟨-, -, hbegin, hdense⟩ := h.initial hkind
      rcases hbad with hbad | hbad
      · exact hbad hbegin
      · exact hbad hdense
  have htime : ¬ (v.count ≠ 0 ∧ d.stamps.appendTime < v.times.maxAppend) := by
    rintro ⟨hcount, hbad⟩
    exact absurd (h.times hcount) (not_le.mpr hbad)
  simp only [Verifier.takeBlock]
  rw [if_neg hown, if_neg hshape, if_neg h.room, if_neg htime]
  rfl

theorem takes_of_takeBlock {v w : Verifier Policy} {d : Descriptor} (h : v.takeBlock codec bytes d = .ok w)
    : v.Takes bytes d := by
  simp only [Verifier.takeBlock] at h
  split at h
  · cases h
  next hown =>
  split at h
  · cases h
  next hshape =>
  split at h
  · cases h
  next hroom =>
  split at h
  · cases h
  next htime =>
  simp only [not_or, not_and, not_lt, Decidable.not_not, Descriptor.coverage] at hshape hown htime
  obtain ⟨hextent, hphysical, hafter, hlogical, hdense⟩ := hshape
  refine ⟨?_, hextent, hphysical, hafter, hlogical, hroom, htime⟩
  intro hkind
  exact ⟨(hown hkind).1, (hown hkind).2, (hdense hkind).1, (hdense hkind).2⟩

/-- What `takeFooter` tests. -/
structure Verifier.Names (v : Verifier Policy) (bytes : List UInt8)
    (referenced : Option VerifiedExtent) (f : Footer) : Prop where
  evidence : ∀ e ∈ referenced, f.location.history = e.context ∧ f.boundary = e.boundary
  named : f.boundary.coverage.bytes = v.boundary.coverage.bytes →
    f.location.history = v.history ∧ f.boundary = v.boundary
  extent : f.extent.end_ = v.position + bytes.length

theorem takeFooter_of_names {v : Verifier Policy} {referenced : Option VerifiedExtent} {f : Footer}
    (h : v.Names bytes referenced f) :
    v.takeFooter codec bytes referenced f = .ok (v.absorb codec bytes) := by
  have hreferenced : Verifier.checkReferenced referenced f = .ok () := by
    cases referenced with
    | none => rfl
    | some e => exact validateDurableFooter_ok.mpr (h.evidence e rfl)
  have hcurrent : v.checkCurrent f = .ok () := by
    simp only [Verifier.checkCurrent]
    split
    · next hbytes => exact validateDurableFooter_ok.mpr (h.named hbytes)
    · rfl
  simp only [Verifier.takeFooter, hreferenced, hcurrent, bind, Except.bind]
  rw [if_neg (not_not_intro h.extent)]

theorem names_of_takeFooter {v w : Verifier Policy} {referenced : Option VerifiedExtent} {f : Footer}
    (h : v.takeFooter codec bytes referenced f = .ok w) : v.Names bytes referenced f := by
  simp only [Verifier.takeFooter, bind, Except.bind] at h
  split at h
  · cases h
  next hreferenced =>
  split at h
  · cases h
  next hcurrent =>
  split at h
  · cases h
  next hextent =>
  refine ⟨?_, ?_, of_not_not hextent⟩
  · rintro e he
    obtain rfl := Option.mem_def.mp he
    exact validateDurableFooter_ok.mp hreferenced
  · intro hbytes
    rw [Verifier.checkCurrent, if_pos hbytes] at hcurrent
    exact validateDurableFooter_ok.mp hcurrent

/-- What a verifier accepts as its next block. -/
structure Verifier.AcceptsBlock (codec : Codec Policy) (v : Verifier Policy) (bytes : List UInt8)
    (expected : BatchExpectation) (d : Descriptor) : Prop where
  admits : v.admits bytes = true
  decoded : codec.decodeBlock v.policy bytes (v.blockExpectation expected) = .ok d
  takes : v.Takes bytes d

/-- What a verifier accepts as its next footer. -/
structure Verifier.AcceptsFooter (codec : Codec Policy) (v : Verifier Policy) (bytes : List UInt8)
    (referenced : Option VerifiedExtent) (f : Footer) : Prop where
  admits : v.admits bytes = true
  decoded : codec.decodeFooter v.policy bytes ⟨v.history, v.position⟩ = .ok f
  names : v.Names bytes referenced f

/-! ## One more object -/

theorem blocks_append_block (accepted : List Accepted) (bytes : List UInt8) (d : Descriptor) :
    blocks (accepted ++ [⟨bytes, .block d⟩]) = blocks accepted ++ [d] := by
  simp [blocks]

theorem stored_append (accepted : List Accepted) (a : Accepted) :
    stored (accepted ++ [a]) = stored accepted ++ a.bytes := by
  simp [stored]

theorem le_foldl_max (f : Descriptor → Int) (ds : List Descriptor) (t : Int) :
    t ≤ ds.foldl (fun t b => max t (f b)) t ∧ ∀ b ∈ ds, f b ≤ ds.foldl (fun t b => max t (f b)) t := by
  induction ds generalizing t with
  | nil => simp
  | cons d rest ih =>
    obtain ⟨hacc, hmem⟩ := ih (max t (f d))
    refine ⟨le_trans (le_max_left _ _) hacc, ?_⟩
    intro b hb
    rcases List.mem_cons.mp hb with rfl | hb
    · exact le_trans (le_max_right _ _) hacc
    · exact hmem b hb

theorem foldl_max_le {f : Descriptor → Int} {ds : List Descriptor} {t bound : Int}
    (ht : t ≤ bound) (h : ∀ b ∈ ds, f b ≤ bound) :
    ds.foldl (fun t b => max t (f b)) t ≤ bound := by
  induction ds generalizing t with
  | nil => exact ht
  | cons d rest ih =>
    exact ih (max_le ht (h d List.mem_cons_self)) fun b hb => h b (List.mem_cons_of_mem _ hb)

/-- The latest append time bounds a time exactly where every block's does. -/
theorem maxAppend_le_iff {ds : List Descriptor} {t : Int} (hne : ds ≠ []) :
    (timesOf ds).maxAppend ≤ t ↔ ∀ b ∈ ds, b.stamps.appendTime ≤ t := by
  cases ds with
  | nil => exact absurd rfl hne
  | cons d rest =>
    obtain ⟨hfirst, hrest⟩ :=
      le_foldl_max (fun b => b.stamps.appendTime) rest d.stamps.appendTime
    constructor
    · intro h b hb
      rcases List.mem_cons.mp hb with rfl | hb
      · exact le_trans hfirst h
      · exact le_trans (hrest b hb) h
    · intro h
      exact foldl_max_le (h d List.mem_cons_self) fun b hb => h b (List.mem_cons_of_mem _ hb)

/-- The times of one more block that is no earlier than the others. -/
theorem timesOf_append {ds : List Descriptor} {d : Descriptor}
    (h : ∀ b ∈ ds, b.stamps.appendTime ≤ d.stamps.appendTime) :
    timesOf (ds ++ [d]) =
      { firstAppend := if ds.length = 0 then d.stamps.appendTime else (timesOf ds).firstAppend
        maxAppend := d.stamps.appendTime
        maxRecord := if ds.length = 0 then d.batch.maxRecordTime
          else max (timesOf ds).maxRecord d.batch.maxRecordTime } := by
  cases ds with
  | nil => simp [timesOf]
  | cons b rest =>
    have hmax := (maxAppend_le_iff (List.cons_ne_nil b rest)).mpr h
    simp only [timesOf] at hmax
    simp [timesOf, List.foldl_append, max_eq_right hmax]

/-- **A verifier holds accepted objects**: it is open, its prefix is their boundary, and where it
    hashes, it has hashed exactly their bytes. -/
structure Holds (codec : Codec Policy) (s : Scope Policy) (v : Verifier Policy)
    (accepted : List Accepted) : Prop where
  history : v.history = s.history
  expected : v.expected = s.expected
  policy : v.policy = s.policy
  kind : v.kind = s.kind
  open_ : v.closed = false
  boundary : v.boundary = s.boundaryAfter codec accepted
  count_le : (blocks accepted).length ≤ maxCount
  hashed : v.integrity = .crc32cAndDigest → v.hasher.getD [] = stored accepted

namespace Holds

variable {s : Scope Policy} {v : Verifier Policy} {accepted : List Accepted}

theorem logical (h : Holds codec s v accepted) : v.logical = s.logicalAfter accepted :=
  congrArg (fun b => b.coverage.logical.end_) h.boundary

theorem physical (h : Holds codec s v accepted) : v.physical = s.physicalAfter accepted :=
  congrArg (fun b => b.coverage.physical.end_) h.boundary

theorem position (h : Holds codec s v accepted) : v.position = s.positionAfter accepted :=
  congrArg (fun b => b.coverage.bytes.end_) h.boundary

theorem count (h : Holds codec s v accepted) : v.count = (blocks accepted).length :=
  congrArg BoundaryFields.blockCount h.boundary

theorem times (h : Holds codec s v accepted) : v.times = timesOf (blocks accepted) :=
  congrArg BoundaryFields.times h.boundary

theorem crc (h : Holds codec s v accepted) : v.crc = codec.crc 0 (stored accepted) :=
  congrArg BoundaryFields.dataCrc h.boundary

theorem blockExpectation (h : Holds codec s v accepted) (batch : BatchExpectation) :
    v.blockExpectation batch = s.expectation accepted batch := by
  simp only [Verifier.blockExpectation, Scope.expectation, h.history, h.physical, h.position]

theorem admits (h : Holds codec s v accepted) (bytes : List UInt8) :
    v.admits bytes = true ↔
      bytes ≠ [] ∧ s.positionAfter accepted + bytes.length ≤ s.expected.bytes.end_ := by
  simp [Verifier.admits, h.position, h.expected]

/-- A verifier with the bytes of one more object absorbed. -/
theorem absorbed {w : Verifier Policy} {a : Accepted} (h : Holds codec s v accepted)
    (hcore : w.history = v.history ∧ w.expected = v.expected ∧ w.policy = v.policy
      ∧ w.kind = v.kind ∧ w.closed = v.closed ∧ w.integrity = v.integrity ∧ w.hasher = v.hasher)
    (hboundary : (w.absorb codec a.bytes).boundary = s.boundaryAfter codec (accepted ++ [a]))
    (hcount : (blocks (accepted ++ [a])).length ≤ maxCount) :
    Holds codec s (w.absorb codec a.bytes) (accepted ++ [a]) := by
  obtain ⟨hhistory, hexpected, hpolicy, hkind, hclosed, hintegrity, hhasher⟩ := hcore
  refine ⟨hhistory.trans h.history, hexpected.trans h.expected, hpolicy.trans h.policy,
    hkind.trans h.kind, hclosed.trans h.open_, hboundary, hcount, ?_⟩
  intro hdigest
  have hd : w.integrity = .crc32cAndDigest := hdigest
  simp only [Verifier.absorb, if_pos hd, Option.getD_some, stored_append, hhasher]
  rw [h.hashed (hintegrity ▸ hd)]

/-- The objects a verifier holds with one more block. -/
theorem withBlock (h : Holds codec s v accepted) {bytes : List UInt8} {expected : BatchExpectation}
    {d : Descriptor} (hf : FollowsBlock codec s accepted bytes expected d) :
    Holds codec s ((v.withBlock d).absorb codec bytes) (accepted ++ [⟨bytes, .block d⟩]) := by
  refine h.absorbed (a := ⟨bytes, .block d⟩) ⟨rfl, rfl, rfl, rfl, rfl, rfl, rfl⟩ ?_ ?_
  · simp only [Verifier.absorb, Verifier.withBlock, Verifier.boundary, Scope.boundaryAfter,
      Scope.logicalAfter, Scope.physicalAfter, Scope.positionAfter, blocks_append_block,
      stored_append, List.getLast?_append, List.getLast?_singleton, Option.some_or,
      Option.map_some, Option.getD_some, List.length_append, List.length_singleton,
      timesOf_append hf.times, codec.crc_append, Verifier.timesWith, h.count, h.times, h.crc,
      h.expected, h.position, Descriptor.coverage, Nat.add_assoc]
  · rw [blocks_append_block, List.length_append, List.length_singleton]
    exact hf.room

end Holds

section

variable [DecidableEq Policy]

theorem enter_eq_ok {α : Type} {v w : Verifier Policy} {out : α} {policy : Policy}
    {body : Except CodecError (α × Verifier Policy)} (hopen : v.closed = false)
    (hpolicy : v.policy = policy) (hbody : body = .ok (out, w)) :
    v.enter policy body = (.ok out, w) := by
  simp [Verifier.enter, hopen, hpolicy, hbody]

theorem enter_eq_error {α : Type} {v : Verifier Policy} {policy : Policy} {why : CodecError}
    {body : Except CodecError (α × Verifier Policy)} (hopen : v.closed = false)
    (hpolicy : v.policy = policy) (hbody : body = .error why) :
    v.enter policy body = (.error why, v.close) := by
  simp [Verifier.enter, hopen, hpolicy, hbody]

section

variable {v : Verifier Policy} {policy : Policy}

/-- A block, offered as bytes to an open verifier, is accepted or closes it. -/
theorem addBlockBytes_cases (hopen : v.closed = false) (hpolicy : v.policy = policy)
    (bytes : List UInt8) (expected : BatchExpectation) :
    (∃ d, v.AcceptsBlock codec bytes expected d
        ∧ v.addBlockBytes codec policy bytes expected
          = (.ok (), (v.withBlock d).absorb codec bytes))
      ∨ ((∀ d, ¬ v.AcceptsBlock codec bytes expected d)
        ∧ ∃ why, v.addBlockBytes codec policy bytes expected = (.error why, v.close)) := by
  by_cases hadmits : v.admits bytes = true
  swap
  · right
    refine ⟨fun d ha => hadmits ha.admits, Verifier.misfit blockFamily,
      enter_eq_error hopen hpolicy ?_⟩
    simp [hadmits, bind, Except.bind]
  cases hdecoded : codec.decodeBlock v.policy bytes (v.blockExpectation expected) with
  | error why =>
    right
    constructor
    · intro d ha
      rw [ha.decoded] at hdecoded
      cases hdecoded
    · refine ⟨why, enter_eq_error hopen hpolicy ?_⟩
      simp [hadmits, hdecoded, bind, Except.bind]
  | ok d =>
    cases htaken : v.takeBlock codec bytes d with
    | ok w =>
      left
      have ht := takes_of_takeBlock htaken
      refine ⟨d, ⟨hadmits, hdecoded, ht⟩, enter_eq_ok hopen hpolicy ?_⟩
      simp [hadmits, hdecoded, takeBlock_of_takes ht, bind, Except.bind]
    | error why =>
      right
      constructor
      · intro d' ha
        obtain rfl : d = d' := Except.ok.inj (hdecoded.symm.trans ha.decoded)
        rw [takeBlock_of_takes ha.takes] at htaken
        cases htaken
      · refine ⟨why, enter_eq_error hopen hpolicy ?_⟩
        simp [hadmits, hdecoded, htaken, bind, Except.bind]

/-- A footer, offered as bytes to an open verifier, is accepted or closes it. -/
theorem addFooterBytes_cases (hopen : v.closed = false) (hpolicy : v.policy = policy)
    (bytes : List UInt8) (referenced : Option VerifiedExtent) :
    (∃ f, v.AcceptsFooter codec bytes referenced f
        ∧ v.addFooterBytes codec policy bytes referenced = (.ok (), v.absorb codec bytes))
      ∨ ((∀ f, ¬ v.AcceptsFooter codec bytes referenced f)
        ∧ ∃ why, v.addFooterBytes codec policy bytes referenced = (.error why, v.close)) := by
  by_cases hadmits : v.admits bytes = true
  swap
  · right
    refine ⟨fun f ha => hadmits ha.admits, Verifier.misfit footerFamily,
      enter_eq_error hopen hpolicy ?_⟩
    simp [hadmits, bind, Except.bind]
  cases hdecoded : codec.decodeFooter v.policy bytes ⟨v.history, v.position⟩ with
  | error why =>
    right
    constructor
    · intro f ha
      rw [ha.decoded] at hdecoded
      cases hdecoded
    · refine ⟨why, enter_eq_error hopen hpolicy ?_⟩
      simp [hadmits, hdecoded, bind, Except.bind]
  | ok f =>
    cases htaken : v.takeFooter codec bytes referenced f with
    | ok w =>
      left
      have hn := names_of_takeFooter htaken
      refine ⟨f, ⟨hadmits, hdecoded, hn⟩, enter_eq_ok hopen hpolicy ?_⟩
      simp [hadmits, hdecoded, takeFooter_of_names hn, bind, Except.bind]
    | error why =>
      right
      constructor
      · intro f' ha
        obtain rfl : f = f' := Except.ok.inj (hdecoded.symm.trans ha.decoded)
        rw [takeFooter_of_names ha.names] at htaken
        cases htaken
      · refine ⟨why, enter_eq_error hopen hpolicy ?_⟩
        simp [hadmits, hdecoded, htaken, bind, Except.bind]

end

section

variable {s : Scope Policy} {v : Verifier Policy} {accepted : List Accepted}

/-- **What an add can do**: take a block or a footer the verifier accepts, or refuse the object and
    leave the verifier closed. -/
theorem add_cases (v : Verifier Policy) (policy : Policy) (o : Object codec) :
    (∃ bytes expected d, o.plain = .blockBytes bytes expected
        ∧ v.AcceptsBlock codec bytes expected d
        ∧ v.add policy o = (.ok (), (v.withBlock d).absorb codec bytes))
      ∨ (∃ bytes referenced f, o.plain = .footerBytes bytes referenced
        ∧ v.AcceptsFooter codec bytes referenced f
        ∧ v.add policy o = (.ok (), v.absorb codec bytes))
      ∨ (v.closed = true ∧ v.add policy o = (.error { code := .closed }, v))
      ∨ ∃ why, v.add policy o = (.error why, v.close) := by
  by_cases hopen : v.closed = false
  swap
  · refine .inr (.inr (.inl ⟨by simpa using hopen, ?_⟩))
    cases o <;> exact if_pos (by simpa using hopen)
  by_cases hpolicy : v.policy = policy
  swap
  · refine .inr (.inr (.inr ⟨{ code := .invalidArgument }, ?_⟩))
    cases o <;> exact (if_neg (by simp [hopen])).trans (if_pos (Ne.symm hpolicy))
  rw [add_plain]
  rcases o.plain_cases with ⟨bytes, expected, hplain⟩ | ⟨bytes, referenced, hplain⟩
  · rw [hplain]
    rcases addBlockBytes_cases hopen hpolicy bytes expected with ⟨d, ha, hadd⟩ | ⟨-, why, hadd⟩
    · exact .inl ⟨bytes, expected, d, rfl, ha, hadd⟩
    · exact .inr (.inr (.inr ⟨why, hadd⟩))
  · rw [hplain]
    rcases addFooterBytes_cases hopen hpolicy bytes referenced with ⟨f, ha, hadd⟩ | ⟨-, why, hadd⟩
    · exact .inr (.inl ⟨bytes, referenced, f, rfl, ha, hadd⟩)
    · exact .inr (.inr (.inr ⟨why, hadd⟩))

end

end

end

end KwaqueStorage.Extent
