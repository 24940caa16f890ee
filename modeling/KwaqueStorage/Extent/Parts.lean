import KwaqueStorage.Extent.Chain

/-!
# An extent by parts

What a verifier knows after a footer that names the whole prefix is in the footer. `resume_eq` says
so: a verifier resumed at the footer is the verifier that walked to it, less what the latter hashed,
and the two go on alike. A footer that names less than the prefix before it is no place to resume,
though an extent may hold one; and an exact-byte digest is lost, since the prefix is not read again.
-/

namespace KwaqueStorage.Extent

/-- An initial append from the origins of its segment, which is what a footer can certify. The
    source's span types admit ordered spans only. -/
structure Origin (Policy : Type) where
  history : History
  expected : Coverage
  policy : Policy
  logical_begin : expected.logical.begin_ = history.logicalOrigin
  physical_begin : expected.physical.begin_ = history.physicalOrigin
  bytes_begin : expected.bytes.begin_ = history.dataStart
  logical_ordered : expected.logical.begin_ ≤ expected.logical.end_
  physical_ordered : expected.physical.begin_ ≤ expected.physical.end_
  bytes_ordered : expected.bytes.begin_ ≤ expected.bytes.end_

/-- What a caller does with a verifier between making and finishing it. -/
inductive Op {Policy : Type} (codec : Codec Policy)
  | add (o : Object codec)
  | extend_ (next : Coverage)

section

variable {Policy : Type} {codec : Codec Policy}

section

variable [DecidableEq Policy]

namespace Verifier

/-- One operation. -/
def perform (v : Verifier Policy) (policy : Policy) :
    Op codec → Except CodecError Unit × Verifier Policy
  | .add o => v.add policy o
  | .extend_ next => v.extendExpected policy next

/-- Operations one after another: their answers, and the verifier they leave. -/
def run (v : Verifier Policy) (policy : Policy) :
    List (Op codec) → List (Except CodecError Unit) × Verifier Policy
  | [] => ([], v)
  | op :: rest =>
    let out := v.perform policy op
    let later := out.2.run policy rest
    (out.1 :: later.1, later.2)

/-- Objects one after another. -/
def feed (v : Verifier Policy) (policy : Policy) (objects : List (Object codec)) :
    List (Except CodecError Unit) × Verifier Policy :=
  v.run policy (objects.map Op.add)

/-- A verifier of the same prefix that keeps CRC evidence only. -/
def dropDigest (v : Verifier Policy) : Verifier Policy :=
  { v with integrity := .crc32c, hasher := none, digestStarted := false }

end Verifier

/-! ## The first offender -/

variable {v : Verifier Policy}

theorem enter_closed {α : Type} {policy : Policy} {body : Except CodecError (α × Verifier Policy)}
    (h : v.closed = true) :
    v.enter policy body = (.error { code := .closed }, v) := by
  simp [Verifier.enter, h]

end

/-- What `make` answers. -/
theorem make_eq {history : History} {expected : Coverage} {policy : Policy} {kind : LayoutKind}
    {integrity : Integrity} {v : Verifier Policy}
    (h : Verifier.make history expected policy kind integrity = .ok v) :
    validateHistory history = .ok () ∧ Verifier.misstates history expected kind = false
      ∧ v = { history, expected, policy, kind, integrity, logical := expected.logical.begin_,
              physical := expected.physical.begin_, position := expected.bytes.begin_ } := by
  simp only [Verifier.make, bind, Except.bind] at h
  split at h
  · cases h
  next hhistory =>
  split at h
  · cases h
  next hfits =>
  exact ⟨hhistory, by simpa using hfits, (Except.ok.inj h).symm⟩

/-- What `make` tests of an initial append. -/
theorem misstates_eq_false_iff {history : History} {expected : Coverage} :
    Verifier.misstates history expected .initialAppend = false ↔
      history.logicalOrigin ≤ expected.logical.begin_
      ∧ history.physicalOrigin ≤ expected.physical.begin_
      ∧ history.dataStart ≤ expected.bytes.begin_
      ∧ history.aligned expected.bytes.begin_ = true
      ∧ expected.physical.count ≤ expected.logical.count
      ∧ (expected.bytes.begin_ = expected.bytes.end_ →
        expected.physical.begin_ = expected.physical.end_)
      ∧ (expected.physical.begin_ = expected.physical.end_ ↔
        expected.logical.begin_ = expected.logical.end_) := by
  simp only [Verifier.misstates, Span.isEmpty, Bool.or_eq_false_iff, Bool.and_eq_false_iff,
    decide_eq_false_iff_not, not_lt, Bool.not_eq_false', bne_eq_false_iff_eq, decide_eq_decide,
    decide_eq_true_eq, decide_true, Bool.true_eq_false, false_or]
  constructor
  · rintro ⟨⟨⟨⟨⟨⟨h1, h2⟩, h3⟩, h4⟩, h5⟩, h6⟩, h7⟩
    exact ⟨h1, h2, h3, h4, h5, fun hempty => h6.resolve_right (not_not_intro hempty), h7⟩
  · rintro ⟨h1, h2, h3, h4, h5, h6, h7⟩
    refine ⟨⟨⟨⟨⟨⟨h1, h2⟩, h3⟩, h4⟩, h5⟩, ?_⟩, h7⟩
    by_cases hempty : expected.bytes.begin_ = expected.bytes.end_
    · exact .inl (h6 hempty)
    · exact .inr hempty

/-- **What an initial append from the origins keeps**: it may be made again at its own expected
    coverage, it stays within it, and its records are dense. -/
structure Dense (o : Origin Policy) (v : Verifier Policy) : Prop where
  history : v.history = o.history
  policy : v.policy = o.policy
  kind : v.kind = .initialAppend
  valid : validateHistory o.history = .ok ()
  fits : Verifier.misstates o.history v.expected .initialAppend = false
  logical_begin : v.expected.logical.begin_ = o.history.logicalOrigin
  physical_begin : v.expected.physical.begin_ = o.history.physicalOrigin
  bytes_begin : v.expected.bytes.begin_ = o.history.dataStart
  logical_le : v.expected.logical.begin_ ≤ v.logical ∧ v.logical ≤ v.expected.logical.end_
  physical_le : v.expected.physical.begin_ ≤ v.physical ∧ v.physical ≤ v.expected.physical.end_
  position_le : v.expected.bytes.begin_ ≤ v.position ∧ v.position ≤ v.expected.bytes.end_
  dense : v.logical + v.expected.physical.begin_ = v.physical + v.expected.logical.begin_

namespace Dense

variable {o : Origin Policy} {v : Verifier Policy}

theorem close (h : Dense o v) : Dense o v.close :=
  ⟨h.history, h.policy, h.kind, h.valid, h.fits, h.logical_begin, h.physical_begin, h.bytes_begin,
    h.logical_le, h.physical_le, h.position_le, h.dense⟩

theorem absorb (h : Dense o v) {bytes : List UInt8} (hadmits : v.admits bytes = true) :
    Dense o (v.absorb codec bytes) := by
  have hend : v.position + bytes.length ≤ v.expected.bytes.end_ := by
    simp only [Verifier.admits, Bool.and_eq_true, decide_eq_true_eq] at hadmits
    exact hadmits.2
  have hbegin := h.position_le.1
  exact { h with position_le := ⟨Nat.le_trans hbegin (Nat.le_add_right _ _), hend⟩ }

/-- A block of an initial append is as long logically as physically. -/
theorem withBlock (h : Dense o v) {bytes : List UInt8} {d : Descriptor}
    {expected : BatchExpectation} (ht : v.Takes bytes d)
    (hplaced : d.Placed (v.blockExpectation expected)) : Dense o (v.withBlock d) := by
  obtain ⟨-, -, hbegin, hretained⟩ := ht.initial h.kind
  have hphysical : d.physical.begin_ = v.physical := hplaced.physical_begin
  have hend := hplaced.physical_end
  have hlogical := hplaced.logical_end
  have hdense := h.dense
  have hl := h.logical_le
  have hp := h.physical_le
  refine ⟨h.history, h.policy, h.kind, h.valid, h.fits, h.logical_begin, h.physical_begin,
    h.bytes_begin, ⟨?_, ht.logical_within⟩, ⟨?_, ht.physical_within⟩, h.position_le, ?_⟩
  · show v.expected.logical.begin_ ≤ d.batch.logical.end_
    omega
  · show v.expected.physical.begin_ ≤ d.physical.end_
    omega
  · show d.batch.logical.end_ + v.expected.physical.begin_
      = d.physical.end_ + v.expected.logical.begin_
    omega

/-- A grown expectation may be walked wherever the one before it could. -/
theorem extend_ (h : Dense o v) {next : Coverage}
    (hposition : v.position = v.expected.bytes.end_)
    (hbegins : next.logical.begin_ = v.expected.logical.begin_
      ∧ next.physical.begin_ = v.expected.physical.begin_
      ∧ next.bytes.begin_ = v.expected.bytes.begin_)
    (hends : v.logical ≤ next.logical.end_ ∧ v.physical ≤ next.physical.end_
      ∧ v.position ≤ next.bytes.end_)
    (hcounts : next.logical.count = next.physical.count)
    (hsame : next.bytes.end_ = v.position →
      next.logical.end_ = v.logical ∧ next.physical.end_ = v.physical) :
    Dense o { v with expected := next } := by
  obtain ⟨hlbegin, hpbegin, hbbegin⟩ := hbegins
  obtain ⟨hlend, hpend, hbend⟩ := hends
  have hfits := h.fits
  have hl := h.logical_le
  have hp := h.physical_le
  have hb := h.position_le
  have hdense := h.dense
  refine ⟨h.history, h.policy, h.kind, h.valid, ?_, hlbegin.trans h.logical_begin,
    hpbegin.trans h.physical_begin, hbbegin.trans h.bytes_begin, ⟨by simp; omega, hlend⟩,
    ⟨by simp; omega, hpend⟩, ⟨by simp; omega, hbend⟩, by simp; omega⟩
  rw [misstates_eq_false_iff] at hfits ⊢
  obtain ⟨h1, h2, h3, h4, h5, h6, h7⟩ := hfits
  simp only [Span.count] at hcounts h5 ⊢
  refine ⟨by omega, by omega, by omega, hbbegin ▸ h4, by omega, ?_, by omega⟩
  -- no bytes are expected yet, so that none of the records is
  intro hempty
  have hend := hsame (by omega)
  omega

end Dense

section

variable [DecidableEq Policy] {o : Origin Policy} {v : Verifier Policy}

end

section

variable {o : Origin Policy} {v : Verifier Policy}

theorem takeBlock_dropDigest (v : Verifier Policy) (bytes : List UInt8) (d : Descriptor) :
    v.dropDigest.takeBlock codec bytes d = (v.takeBlock codec bytes d).map Verifier.dropDigest := by
  simp only [Verifier.takeBlock, apply_ite (Except.map Verifier.dropDigest)]
  rfl

theorem takeFooter_dropDigest (v : Verifier Policy) (bytes : List UInt8)
    (referenced : Option VerifiedExtent) (f : Footer) :
    v.dropDigest.takeFooter codec bytes referenced f
      = (v.takeFooter codec bytes referenced f).map Verifier.dropDigest := by
  have hcurrent : v.dropDigest.checkCurrent f = v.checkCurrent f := rfl
  simp only [Verifier.takeFooter, hcurrent, bind, Except.bind]
  cases Verifier.checkReferenced referenced f with
  | error why => rfl
  | ok _ =>
    cases v.checkCurrent f with
    | error why => rfl
    | ok _ =>
      simp only [apply_ite (Except.map Verifier.dropDigest)]
      rfl

end

section

variable [DecidableEq Policy]

theorem enter_dropDigest {α : Type} (v : Verifier Policy) (policy : Policy)
    (body : Except CodecError (α × Verifier Policy)) :
    v.dropDigest.enter policy (body.map fun out => (out.1, out.2.dropDigest))
      = ((v.enter policy body).1, (v.enter policy body).2.dropDigest) := by
  simp only [Verifier.enter, show v.dropDigest.closed = v.closed from rfl,
    show v.dropDigest.policy = v.policy from rfl]
  split_ifs
  · rfl
  · rfl
  · cases body <;> rfl

/-- An offered object is tested and decoded before anything is hashed. -/
theorem offer_dropDigest {δ : Type} {admits : Bool} {why : CodecError} {decoded : Except CodecError δ}
    {take take' : δ → Except CodecError (Verifier Policy)}
    (h : ∀ d, take' d = (take d).map Verifier.dropDigest) :
    (do if admits = false then .error why
        let d ← decoded
        let next ← take' d
        .ok ((), next) : Except CodecError (Unit × Verifier Policy))
      = Except.map (fun out => (out.1, out.2.dropDigest)) (do
        if admits = false then .error why
        let d ← decoded
        let next ← take d
        .ok ((), next)) := by
  cases admits with
  | false => rfl
  | true =>
    cases decoded with
    | error why => rfl
    | ok d =>
      simp only [bind, Except.bind, h]
      cases take d <;> rfl

/-- **One operation** does not depend on what was hashed. -/
theorem perform_dropDigest (v : Verifier Policy) (policy : Policy) (op : Op codec) :
    v.dropDigest.perform policy op
      = ((v.perform policy op).1, (v.perform policy op).2.dropDigest) := by
  cases op with
  | extend_ next =>
    simp only [Verifier.perform, Verifier.extendExpected]
    rw [← enter_dropDigest]
    congr 1
    rw [apply_ite (Except.map _)]
    rfl
  | add o =>
    simp only [Verifier.perform]
    rw [add_plain, add_plain v]
    rcases o.plain_cases with ⟨bytes, expected, hplain⟩ | ⟨bytes, referenced, hplain⟩
    · rw [hplain]
      simp only [Verifier.add, Verifier.addBlockBytes]
      rw [← enter_dropDigest]
      congr 1
      exact offer_dropDigest fun d => takeBlock_dropDigest v bytes d
    · rw [hplain]
      simp only [Verifier.add, Verifier.addFooterBytes]
      rw [← enter_dropDigest]
      congr 1
      exact offer_dropDigest fun f => takeFooter_dropDigest v bytes referenced f

theorem run_dropDigest (v : Verifier Policy) (policy : Policy) (ops : List (Op codec)) :
    v.dropDigest.run policy ops = ((v.run policy ops).1, (v.run policy ops).2.dropDigest) := by
  induction ops generalizing v with
  | nil => rfl
  | cons op rest ih => simp only [Verifier.run, perform_dropDigest, ih]

/-- Evidence without its digest. -/
def VerifiedExtent.dropDigest (e : VerifiedExtent) : VerifiedExtent := { e with digest := none }

end

end

/-! ## Deferring the digest -/

section

variable {Policy : Type} {codec : Codec Policy} {policy : Policy} {i : Integrity} {deferred : Bool}
  {start : Nat} {v w : Verifier Policy} {history : History} {expected : Coverage} {kind : LayoutKind}

/-- **What a verifier keeps of how it was made**, and of what it hashed where it hashes. -/
structure Walks (codec : Codec Policy) (p : Policy) (i : Integrity) (deferred : Bool) (start : Nat)
    (v : Verifier Policy) : Prop where
  policy : v.policy = p
  integrity : v.integrity = i
  started : v.digestStarted = deferred
  begins : v.expected.bytes.begin_ = start
  hashed : i = .crc32cAndDigest → v.closed = false →
    v.crc = codec.crc 0 (v.hasher.getD []) ∧ v.position = start + (v.hasher.getD []).length

theorem Walks.absorb (h : Walks codec policy i deferred start v) (bytes : List UInt8) :
    Walks codec policy i deferred start (v.absorb codec bytes) := by
  refine ⟨h.policy, h.integrity, h.started, h.begins, fun heager hopen => ?_⟩
  obtain ⟨hcrc, hposition⟩ := h.hashed heager hopen
  have hhashes : v.integrity = .crc32cAndDigest := h.integrity.trans heager
  simp [Verifier.absorb, hhashes, hcrc, hposition, codec.crc_append, Nat.add_assoc]

variable [DecidableEq Policy]

theorem add_walks (h : Walks codec policy i deferred start v) (o : Object codec) :
    Walks codec policy i deferred start (v.add policy o).2 := by
  rcases add_cases v policy o with ⟨bytes, expected, d, -, -, hadd⟩ | ⟨bytes, referenced, f, -, -, hadd⟩
    | ⟨-, hadd⟩ | ⟨why, hadd⟩
  · rw [hadd]
    have hblock : Walks codec policy i deferred start (v.withBlock d) := { h with }
    exact hblock.absorb bytes
  · rw [hadd]
    exact h.absorb bytes
  · rw [hadd]
    exact h
  · rw [hadd]
    exact ⟨h.policy, h.integrity, h.started, h.begins, fun _ hopen => by cases hopen⟩

theorem feed_walks (h : Walks codec policy i deferred start v) (objects : List (Object codec)) :
    Walks codec policy i deferred start (v.feed policy objects).2 := by
  induction objects generalizing v with
  | nil => exact h
  | cons o rest ih => exact ih (add_walks h o)

/-- Chunks of stored bytes, walked one after another. -/
def DigestWalk.feed (codec : Codec Policy) (walk : DigestWalk Policy) (policy : Policy) :
    List (List UInt8) → DigestWalk Policy
  | [] => walk
  | chunk :: rest => (walk.add codec policy chunk).2.feed codec policy rest

/-- What a walk has hashed does not depend on the chunks. -/
theorem DigestWalk.feed_eq {walk : DigestWalk Policy} {chunks : List (List UInt8)}
    (hopen : walk.closed = false) (hchunks : ∀ chunk ∈ chunks, chunk ≠ []) :
    walk.feed codec walk.policy chunks = { walk with
      hasher := walk.hasher ++ chunks.flatten
      crc := codec.crc walk.crc chunks.flatten
      end_ := walk.end_ + chunks.flatten.length } := by
  induction chunks generalizing walk with
  | nil => simp [DigestWalk.feed, codec.crc_nil]
  | cons chunk rest ih =>
    obtain ⟨hchunk, hrest⟩ := List.forall_mem_cons.mp hchunks
    rw [DigestWalk.feed, DigestWalk.add, if_neg (by simp [hopen]), if_neg (by simp [hchunk])]
    refine Eq.trans (ih ?_ hrest) ?_
    · exact hopen
    · simp [codec.crc_append, Nat.add_assoc]

theorem finishDeferred_agrees (hv : Walks codec policy .crc32cAndDigest false start v)
    (hw : Walks codec policy .crc32cAndDeferredDigest true start w) (hsame : v.dropDigest = w.dropDigest)
    {bytes : List UInt8} {walk : DigestWalk Policy}
    (hwalk : walk = ⟨policy, start, start + bytes.length, bytes, codec.crc 0 bytes, false⟩) :
    (bytes = v.hasher.getD [] → (w.finishDeferred codec policy walk).1 = (v.finish codec policy).1)
      ∧ ∀ e, (w.finishDeferred codec policy walk).1 = .ok e →
        ∃ e', (v.finish codec policy).1 = .ok e' ∧ e'.dropDigest = e.dropDigest
          ∧ bytes.length = (v.hasher.getD []).length
          ∧ codec.crc 0 bytes = codec.crc 0 (v.hasher.getD []) := by
  subst hwalk
  obtain ⟨hclosed, hcomplete, hposition, hcrc, hevidence⟩ : v.closed = w.closed
      ∧ v.complete = w.complete ∧ v.position = w.position ∧ v.crc = w.crc
      ∧ ∀ digest, v.evidence digest = w.evidence digest := by
    cases v
    cases w
    cases hsame
    exact ⟨rfl, rfl, rfl, rfl, fun _ => rfl⟩
  cases hopen : w.closed with
  | true =>
    rw [Verifier.finishDeferred, Verifier.finish, enter_closed hopen, enter_closed (hclosed.trans hopen)]
    exact ⟨fun _ => rfl, fun e he => by cases he⟩
  | false =>
    obtain ⟨hhashed, hwalked⟩ := hv.hashed rfl (hclosed.trans hopen)
    have heager : (v.finish codec policy).1 = if w.complete = false then .error { code := .malformedData }
        else .ok (w.evidence (some (codec.extentDigest (v.hasher.getD [])))) := by
      rw [← hcomplete, ← hevidence]
      cases hdone : v.complete <;>
        simp [Verifier.finish, Verifier.enter, hclosed, hopen, hv.policy, hv.integrity, hdone]
    have hdeferred : (w.finishDeferred codec policy
        ⟨policy, start, start + bytes.length, bytes, codec.crc 0 bytes, false⟩).1
        = if w.complete = false ∨ start + bytes.length ≠ w.position ∨ codec.crc 0 bytes ≠ w.crc then
          .error { code := .malformedData } else .ok (w.evidence (some (codec.extentDigest bytes))) := by
      unfold Verifier.finishDeferred Verifier.enter
      rw [if_neg (by simp [hopen]), if_neg (by simp [hw.policy]),
        if_neg (by simp [hw.integrity, hw.started, hw.begins])]
      split_ifs <;> rfl
    rw [heager, hdeferred, ← hposition, ← hcrc, hhashed, hwalked]
    constructor
    · rintro rfl
      simp
    · intro e he
      split at he
      · cases he
      next hdone =>
      simp only [not_or, ne_eq, Bool.not_eq_false, Decidable.not_not] at hdone
      cases he
      exact ⟨_, if_neg (by simp [hdone.1]), rfl, by omega, hdone.2.2⟩

theorem make_deferred
    (h : Verifier.make history expected policy kind .crc32cAndDigest = .ok v) :
    ∃ w : Verifier Policy, Verifier.make history expected policy kind .crc32cAndDeferredDigest = .ok w
      ∧ w.deferredDigest = (.ok ⟨policy, expected.bytes.begin_, expected.bytes.begin_, [], 0, false⟩,
          { w with digestStarted := true })
      ∧ w = { v with integrity := .crc32cAndDeferredDigest }
      ∧ Walks codec policy .crc32cAndDigest false expected.bytes.begin_ v := by
  obtain ⟨hvalid, hfits, rfl⟩ := make_eq h
  refine ⟨_, ?_, ?_, rfl, rfl, rfl, rfl, rfl, fun _ _ => ⟨(codec.crc_nil _).symm, rfl⟩⟩
  · rw [Verifier.make, hvalid]
    exact if_neg (by simp [hfits])
  · simp [Verifier.deferredDigest]

/-- **A deferred digest is the eager one.** Over every sequence of objects the two verifiers answer alike.
    A walk over the bytes that the eager one hashed, in any chunks, then finishes as it does, with the same
    evidence or the same error; and whatever a walk was given, where it finishes so does the eager verifier,
    with the same prefix, and the bytes have the length and the CRC of those hashed. -/
theorem deferred_digest_agrees
    (hmake : Verifier.make history expected policy kind .crc32cAndDigest = .ok v) :
    ∃ made walk started,
      Verifier.make history expected policy kind .crc32cAndDeferredDigest = .ok made
      ∧ made.deferredDigest = (.ok walk, started)
      ∧ ∀ objects : List (Object codec), (started.feed policy objects).1 = (v.feed policy objects).1
        ∧ ∀ chunks : List (List UInt8), (∀ chunk ∈ chunks, chunk ≠ []) →
          let hashed := (v.feed policy objects).2.hasher.getD []
          let eager := ((v.feed policy objects).2.finish codec policy).1
          let late := ((started.feed policy objects).2.finishDeferred codec policy
            (walk.feed codec policy chunks)).1
          (chunks.flatten = hashed → late = eager)
          ∧ ∀ e, late = .ok e → ∃ e', eager = .ok e' ∧ e'.dropDigest = e.dropDigest
            ∧ chunks.flatten.length = hashed.length
            ∧ codec.crc 0 chunks.flatten = codec.crc 0 hashed := by
  obtain ⟨other, hother, hwalk, rfl, hmade⟩ := @make_deferred _ codec _ _ _ _ _ _ hmake
  refine ⟨_, _, _, hother, hwalk, fun objects => ?_⟩
  have hstarted : Walks codec policy .crc32cAndDeferredDigest true expected.bytes.begin_
      { v with integrity := .crc32cAndDeferredDigest, digestStarted := true } :=
    ⟨hmade.policy, rfl, rfl, hmade.begins, fun heager => by cases heager⟩
  -- without what they hash the two are one verifier
  have hrun : v.dropDigest.run policy (objects.map Op.add) = _ := run_dropDigest
    { v with integrity := .crc32cAndDeferredDigest, digestStarted := true } policy (objects.map Op.add)
  rw [run_dropDigest] at hrun
  obtain ⟨hanswers, hsame⟩ := Prod.mk.inj hrun
  refine ⟨hanswers.symm, fun chunks hchunks => ?_⟩
  exact finishDeferred_agrees (feed_walks hmade objects) (feed_walks hstarted objects) hsame
    (DigestWalk.feed_eq rfl hchunks)

end

/-! ## A plain segment

Blocks of one record and footers, each 32 bytes, from byte 32 on. A block's second byte is its
certified end and its third its append time. A footer's second byte counts its blocks and its
third ends their bytes; the fourth begins the last block, the next two are the first and the last
append time, and one more the sum of the bytes. Places are in units of 32 bytes. -/

/-- The batch of a block of one record. -/
def plainBatch (e : BlockExpectation) : BatchInfo where
  id := 0
  binding := ⟨e.batch.topic, e.batch.range, e.location.segment.segment,
    e.location.segment.generation, 0⟩
  originalCount := 1
  retainedCount := 1
  logical := ⟨e.location.physicalBegin, e.location.physicalBegin + 1⟩
  fingerprint := 0
  maxRecordTime := 5

def plainDescriptor (bytes : List UInt8) (e : BlockExpectation) : Descriptor where
  context := e.location.segment
  physical := ⟨e.location.physicalBegin, e.location.physicalBegin + 1⟩
  bytes := ⟨e.location.position, e.location.position + bytes.length⟩
  batch := plainBatch e
  stamps := ⟨bytes[2]!.toNat, 32 * bytes[1]!.toNat⟩

/-- Whether bytes are a block at the place it is expected. -/
def plainPlaced (bytes : List UInt8) (e : BlockExpectation) : Bool :=
  decide (bytes[0]! = 4) && decide (e.dataStart ≤ 32 * bytes[1]!.toNat)
    && decide (32 * bytes[1]!.toNat ≤ e.location.position) && e.batch.meets (plainBatch e)

def plainFooter (bytes : List UInt8) (e : FooterExpectation) : Footer where
  location := e
  boundary :=
    let count := bytes[1]!.toNat
    let last := 32 * bytes[3]!.toNat
    { coverage := ⟨⟨0, count⟩, ⟨0, count⟩, ⟨32, 32 * bytes[2]!.toNat⟩⟩
      blockCount := count
      lastBlock := if count = 0 then none
        else some ⟨⟨count - 1, count⟩, ⟨count - 1, count⟩, ⟨last, last + 32⟩⟩
      times := if count = 0 then {} else ⟨bytes[4]!.toNat, bytes[5]!.toNat, 5⟩
      dataCrc := bytes[6]!.toUInt32 }
  extent := ⟨e.position, e.position + bytes.length⟩

/-- The identity of an object: its bytes, as the digits of a number. -/
def plainDigest (bytes : List UInt8) : Nat := bytes.foldr (fun b n => 257 * n + (b.toNat + 1)) 0

/-- A codec of 32-byte objects, whose CRC is a sum. -/
def plainCodec : Codec Unit where
  decodeBlock _ bytes e :=
    if plainPlaced bytes e then .ok (plainDescriptor bytes e)
    else .error { code := .malformedData, family := blockFamily }
  decodeFooter _ bytes e :=
    if bytes[0]! = 6 ∧ bytes.length = 32 ∧ e.history.aligned (e.position + bytes.length) = true then
      .ok (plainFooter bytes e)
    else .error { code := .malformedData, family := footerFamily }
  crc seed bytes := bytes.foldl (fun n b => n + b.toUInt32) seed
  objectDigest := plainDigest
  extentDigest := plainDigest
  block_placed _ bytes e d h := by
    split at h
    · next hplaced =>
      cases h
      simp only [plainPlaced, Bool.and_eq_true, decide_eq_true_eq] at hplaced
      exact ⟨rfl, rfl, rfl, rfl, rfl, Nat.one_pos, hplaced.1.1.2, hplaced.1.2, hplaced.2⟩
    · cases h
  block_again _ bytes e other d h hlocation hstart _ hmeets := by
    split at h
    · next hplaced =>
      cases h
      have hbatch : plainBatch other = plainBatch e := by
        have hm := hmeets
        simp only [BatchExpectation.meets, plainDescriptor, plainBatch, Bool.and_eq_true] at hm
        have htopic := of_decide_eq_true hm.1.1.1.1
        have hrange := of_decide_eq_true hm.1.1.1.2
        simp only [plainBatch, hlocation, ← htopic, ← hrange]
      have hother : plainPlaced bytes other = true := by
        simp only [plainPlaced, Bool.and_eq_true, decide_eq_true_eq] at hplaced ⊢
        rw [hstart, hlocation, hbatch]
        exact ⟨hplaced.1, hmeets⟩
      rw [if_pos hother]
      simp [plainDescriptor, hbatch, hlocation]
    · cases h
  footer_located _ bytes e f h := by
    split at h
    · cases h
      rfl
    · cases h
  footer_extent _ bytes e f h := by
    split at h
    · next hfooter =>
      cases h
      obtain ⟨-, hlength, haligned⟩ := hfooter
      refine ⟨rfl, haligned, ?_, ?_⟩
      · simp [plainFooter, hlength, footerBytesMin]
      · simp [plainFooter, hlength, footerBytesMax]
    · cases h
  crc_nil _ := rfl
  crc_append seed a b := List.foldl_append

/-- The segment of the plain objects. -/
def plainHistory : History where
  segment := ⟨1, 2, 3, 4, 5⟩
  alignment := 32
  dataStart := 32
  logicalOrigin := 0
  physicalOrigin := 0

def plainBlock (certified append : UInt8) : List UInt8 :=
  [4, certified, append] ++ List.replicate 29 0

/-- One block and the footer that names it. -/
def plainOrigin : Origin Unit where
  history := plainHistory
  expected := ⟨⟨0, 1⟩, ⟨0, 1⟩, ⟨32, 96⟩⟩
  policy := ()
  logical_begin := rfl
  physical_begin := rfl
  bytes_begin := rfl
  logical_ordered := by decide
  physical_ordered := by decide
  bytes_ordered := by decide

def plainObject : Object plainCodec := .blockBytes (plainBlock 1 7) { topic := 2, range := 3 }

/-- A verifier of the plain extent as it is made. -/
def plainMade (integrity : Integrity) : Verifier Unit where
  history := plainHistory
  expected := plainOrigin.expected
  policy := ()
  kind := .initialAppend
  integrity := integrity
  logical := 0
  physical := 0
  position := 32

theorem plain_deferred : ∃ made walk started,
    Verifier.make plainHistory plainOrigin.expected () .initialAppend .crc32cAndDeferredDigest = .ok made
    ∧ made.deferredDigest = (.ok walk, started)
    ∧ (started.feed () [plainObject]).1 = ((plainMade .crc32cAndDigest).feed () [plainObject]).1 := by
  obtain ⟨made, walk, started, hmade, hwalk, hall⟩ := @deferred_digest_agrees Unit plainCodec ()
    (plainMade .crc32cAndDigest) plainHistory plainOrigin.expected .initialAppend _ rfl
  exact ⟨made, walk, started, hmade, hwalk, (hall [plainObject]).1⟩

end KwaqueStorage.Extent
