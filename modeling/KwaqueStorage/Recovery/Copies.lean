import KwaqueStorage.Extent.Format
import KwaqueStorage.Lib.Checks

/-!
# Two copies of one slot

Recovery finds the same batch twice: as the PREPARE in the WAL and as the block in its segment. Whether the
two are copies of each other is asked in three ways. `compare_recovery_copies` has both at hand and compares
them field by field, the bytes last. Once the PREPARE is gone only its `recovery_copy_identity` is left, with
the digest of its bytes: `compare_recovery_claims` compares everything up to the bytes, and
`compare_recovery_identity` goes on to the digest.

All three compare what a copy *shows* (`Shown`), and nothing else of it. So what they decide is an equality,
and does not depend on which copy was read first.

What a batch decodes to is a function of its bytes, which is a parameter here: neither a PREPARE nor a block
can be made around a batch that its bytes do not spell.
-/

namespace KwaqueStorage.Recovery

open Extent Lib

/-! ## The copies -/

/-- `wal_prepare_stamps`. -/
structure PrepareStamps where
  endsWrite : Bool
  appendTime : Int
  targetCertifiedEnd : Nat
  walCertifiedEnd : Nat
  deriving DecidableEq

/-- `wal_prepare`, with the batch that its bytes spell. -/
structure Prepare (read : List UInt8 → Option BatchInfo) where
  target : WriteContext
  stamps : PrepareStamps
  info : BatchInfo
  bytes : List UInt8
  spelled : read bytes = some info

/-- `segment_block`. Sharing the bytes of its child may be refused. -/
structure Block (read : List UInt8 → Option BatchInfo) where
  descriptor : Descriptor
  childBytes : List UInt8
  refused : Option Errc := none
  spelled : read childBytes = some descriptor.batch

variable {read : List UInt8 → Option BatchInfo} {δ : Type}

/-- `segment_block::child`. -/
def Block.child (block : Block read) : Except Errc (List UInt8) :=
  match block.refused with
  | some code => .error code
  | none => .ok block.childBytes

/-- `recovery_copy_difference`. -/
inductive CopyDifference
  | none
  | target
  | batchId
  | originalBinding
  | stamps
  | length
  | child
  deriving DecidableEq

/-- `recovery_copy_identity`. -/
structure CopyIdentity (δ : Type) where
  target : WriteContext
  id : Nat
  binding : Binding
  stamps : Stamps
  maxRecordTime : Int
  childBytes : Nat
  child : δ
  deriving DecidableEq

/-- `recovery_identity`. -/
def recoveryIdentity (prepare : Prepare read) (child : δ) : CopyIdentity δ where
  target := prepare.target
  id := prepare.info.id
  binding := prepare.info.binding
  stamps := ⟨prepare.stamps.appendTime, prepare.stamps.targetCertifiedEnd⟩
  maxRecordTime := prepare.info.maxRecordTime
  childBytes := prepare.bytes.length
  child := child

/-! ## The comparisons -/

/-- `compare_recovery_copies`. -/
def compareRecoveryCopies (prepare : Prepare read) (block : Block read) : Except Errc CopyDifference :=
  let target := prepare.target
  let placed := block.descriptor.coverage
  if target.segment ≠ block.descriptor.context ∨ target.position ≠ placed.bytes.begin_ ∨
      target.physicalBegin ≠ placed.physical.begin_ then .ok .target
  else if prepare.info.id ≠ block.descriptor.batch.id then .ok .batchId
  else if prepare.info.binding ≠ block.descriptor.batch.binding then .ok .originalBinding
  else if (⟨prepare.stamps.appendTime, prepare.stamps.targetCertifiedEnd⟩ : Stamps) ≠
      block.descriptor.stamps ∨
      prepare.info.maxRecordTime ≠ block.descriptor.batch.maxRecordTime then .ok .stamps
  else do
    let child ← block.child
    if prepare.bytes.length ≠ child.length then .ok .length
    else if prepare.bytes ≠ child then .ok .child
    else .ok .none

/-- `compare_recovery_claims`. -/
def compareRecoveryClaims (prepare : CopyIdentity δ) (block : Block read) : Except Errc CopyDifference :=
  let target := prepare.target
  let placed := block.descriptor.coverage
  if target.segment ≠ block.descriptor.context ∨ target.position ≠ placed.bytes.begin_ ∨
      target.physicalBegin ≠ placed.physical.begin_ then .ok .target
  else if prepare.id ≠ block.descriptor.batch.id then .ok .batchId
  else if prepare.binding ≠ block.descriptor.batch.binding then .ok .originalBinding
  else if prepare.stamps ≠ block.descriptor.stamps ∨
      prepare.maxRecordTime ≠ block.descriptor.batch.maxRecordTime then .ok .stamps
  else do
    let child ← block.child
    if prepare.childBytes ≠ child.length then .ok .length else .ok .none

/-- `compare_recovery_identity`; `hash` is `hash_exact`. -/
def compareRecoveryIdentity [DecidableEq δ] (hash : List UInt8 → δ) (prepare : CopyIdentity δ) (block : Block read) :
    Except Errc CopyDifference := do
  let difference ← compareRecoveryClaims prepare block
  if difference ≠ .none then .ok difference
  else do
    let child ← block.child
    .ok (if hash child = prepare.child then .none else .child)

/-! ## What a copy shows -/

/-- What is compared of a copy: where it lies, its batch, what was stamped on it, and its bytes. -/
structure Shown where
  segment : SegmentContext
  position : Nat
  physicalBegin : Nat
  stamps : Stamps
  info : BatchInfo
  bytes : List UInt8
  deriving DecidableEq

/-- A copy, of either kind. -/
inductive Copy (read : List UInt8 → Option BatchInfo)
  | prepare (prepare : Prepare read)
  | block (block : Block read)

def Prepare.shown (prepare : Prepare read) : Shown where
  segment := prepare.target.segment
  position := prepare.target.position
  physicalBegin := prepare.target.physicalBegin
  stamps := ⟨prepare.stamps.appendTime, prepare.stamps.targetCertifiedEnd⟩
  info := prepare.info
  bytes := prepare.bytes

def Block.shown (block : Block read) : Shown where
  segment := block.descriptor.context
  position := block.descriptor.bytes.begin_
  physicalBegin := block.descriptor.physical.begin_
  stamps := block.descriptor.stamps
  info := block.descriptor.batch
  bytes := block.childBytes

def Copy.shown : Copy read → Shown
  | .prepare p => p.shown
  | .block b => b.shown

/-- Copies of one batch in one slot. -/
def Identical (x y : Copy read) : Prop := x.shown = y.shown

/-- The bytes decide the batch, so copies that agree in their bytes agree in all of it. -/
theorem info_of_bytes {prepare : Prepare read} {block : Block read}
    (h : prepare.bytes = block.childBytes) : prepare.info = block.descriptor.batch := by
  have hspelled := prepare.spelled
  rw [h, block.spelled] at hspelled
  exact (Option.some.inj hspelled).symm

/-! ## What each comparison decides -/

/-- Everything agrees up to the bytes, and there are as many of them. -/
structure Claims (prepare : Shown) (block : Shown) : Prop where
  segment : prepare.segment = block.segment
  position : prepare.position = block.position
  physicalBegin : prepare.physicalBegin = block.physicalBegin
  id : prepare.info.id = block.info.id
  binding : prepare.info.binding = block.info.binding
  stamps : prepare.stamps = block.stamps
  maxRecordTime : prepare.info.maxRecordTime = block.info.maxRecordTime
  length : prepare.bytes.length = block.bytes.length

/-- The named field is one in which the identities differ. -/
def Names (prepare block : Shown) : CopyDifference → Prop
  | .none => False
  | .target => prepare.segment ≠ block.segment ∨ prepare.position ≠ block.position ∨
      prepare.physicalBegin ≠ block.physicalBegin
  | .batchId => prepare.info.id ≠ block.info.id
  | .originalBinding => prepare.info.binding ≠ block.info.binding
  | .stamps => prepare.stamps ≠ block.stamps ∨ prepare.info.maxRecordTime ≠ block.info.maxRecordTime
  | .length => prepare.bytes.length ≠ block.bytes.length
  | .child => prepare.bytes ≠ block.bytes

/-- **The claims**: their comparison passes where they agree, names a field where they do not, and fails
    only where the child cannot be shared. -/
theorem claims_cases (prepare : Prepare read) (block : Block read) (child : δ) :
    (compareRecoveryClaims (recoveryIdentity prepare child) block = .ok .none ∧
      Claims prepare.shown block.shown ∧ block.refused = none) ∨
    (∃ code, compareRecoveryClaims (recoveryIdentity prepare child) block = .error code ∧
      block.refused = some code) ∨
    ∃ difference, compareRecoveryClaims (recoveryIdentity prepare child) block = .ok difference ∧
      Names prepare.shown block.shown difference ∧ difference ≠ .child := by
  unfold compareRecoveryClaims
  dsimp only
  split
  next h => exact .inr (.inr ⟨_, rfl, h, by decide⟩)
  next htarget =>
    split
    next h => exact .inr (.inr ⟨_, rfl, h, by decide⟩)
    next hid =>
      split
      next h => exact .inr (.inr ⟨_, rfl, h, by decide⟩)
      next hbinding =>
        split
        next h => exact .inr (.inr ⟨_, rfl, h, by decide⟩)
        next hstamps =>
          unfold Block.child
          rcases hrefused : block.refused with _ | code
          · rw [show ((Except.ok block.childBytes : Except Errc (List UInt8)) >>= fun child' =>
                if (recoveryIdentity prepare child).childBytes ≠ child'.length then Except.ok .length
                else Except.ok CopyDifference.none) =
              if prepare.bytes.length ≠ block.childBytes.length then Except.ok .length
                else Except.ok CopyDifference.none from rfl]
            split
            next h => exact .inr (.inr ⟨_, rfl, h, by decide⟩)
            next hlength =>
              simp only [ne_eq, not_or, not_not] at htarget hid hbinding hstamps hlength
              exact .inl ⟨rfl, ⟨htarget.1, htarget.2.1, htarget.2.2, hid, hbinding, hstamps.1, hstamps.2,
                hlength⟩, rfl⟩
          · exact .inr (.inl ⟨code, rfl, rfl⟩)

theorem Claims.not_names {prepare block : Shown} (h : Claims prepare block) {difference : CopyDifference}
    (hchild : difference ≠ .child) : ¬ Names prepare block difference := by
  intro hnames
  cases difference with
  | none => exact hnames
  | target =>
    rcases hnames with hne | hne | hne
    · exact hne h.segment
    · exact hne h.position
    · exact hne h.physicalBegin
  | batchId => exact hnames h.id
  | originalBinding => exact hnames h.binding
  | stamps =>
    rcases hnames with hne | hne
    · exact hne h.stamps
    · exact hne h.maxRecordTime
  | length => exact hnames h.length
  | child => exact hchild rfl

/-- The comparison of the copies is that of the claims and then of the bytes. -/
theorem compareRecoveryCopies_eq (prepare : Prepare read) (block : Block read) (child : δ) :
    compareRecoveryCopies prepare block =
      (do
        let difference ← compareRecoveryClaims (recoveryIdentity prepare child) block
        if difference ≠ .none then .ok difference
        else if prepare.bytes ≠ block.childBytes then .ok .child else .ok .none) := by
  unfold compareRecoveryCopies compareRecoveryClaims recoveryIdentity
  dsimp only
  by_cases htarget : prepare.target.segment ≠ block.descriptor.context ∨
      prepare.target.position ≠ block.descriptor.coverage.bytes.begin_ ∨
      prepare.target.physicalBegin ≠ block.descriptor.coverage.physical.begin_
  · simp only [if_pos htarget]
    rfl
  by_cases hid : prepare.info.id ≠ block.descriptor.batch.id
  · simp only [if_neg htarget, if_pos hid]
    rfl
  by_cases hbinding : prepare.info.binding ≠ block.descriptor.batch.binding
  · simp only [if_neg htarget, if_neg hid, if_pos hbinding]
    rfl
  by_cases hstamps : (⟨prepare.stamps.appendTime, prepare.stamps.targetCertifiedEnd⟩ : Stamps) ≠
      block.descriptor.stamps ∨ prepare.info.maxRecordTime ≠ block.descriptor.batch.maxRecordTime
  · simp only [if_neg htarget, if_neg hid, if_neg hbinding, if_pos hstamps]
    rfl
  simp only [if_neg htarget, if_neg hid, if_neg hbinding, if_neg hstamps]
  unfold Block.child
  rcases block.refused with _ | code
  · by_cases hlength : prepare.bytes.length ≠ block.childBytes.length
    · show (if prepare.bytes.length ≠ block.childBytes.length then _ else _) =
        ((if prepare.bytes.length ≠ block.childBytes.length then _ else _) >>= _)
      rw [if_pos hlength, if_pos hlength]
      rfl
    · show (if prepare.bytes.length ≠ block.childBytes.length then _ else _) =
        ((if prepare.bytes.length ≠ block.childBytes.length then _ else _) >>= _)
      rw [if_neg hlength, if_neg hlength]
      rfl
  · rfl

/-- **The copies**: the comparison answers none exactly where they are identical, and names a field in which
    they differ otherwise. -/
theorem copies_cases (prepare : Prepare read) (block : Block read) :
    (compareRecoveryCopies prepare block = .ok .none ∧ prepare.shown = block.shown ∧
      block.refused = none) ∨
    (∃ code, compareRecoveryCopies prepare block = .error code ∧ block.refused = some code) ∨
    ∃ difference, compareRecoveryCopies prepare block = .ok difference ∧
      Names prepare.shown block.shown difference := by
  have hcall := compareRecoveryCopies_eq prepare block ()
  rcases claims_cases prepare block () with ⟨hnone, hclaims, hrefused⟩ | ⟨code, herror, hrefused⟩ |
    ⟨difference, hdifference, hnames, -⟩
  · rw [hnone] at hcall
    by_cases hbytes : prepare.bytes = block.childBytes
    · refine .inl ⟨?_, ?_, hrefused⟩
      · rw [hcall]
        exact if_neg (not_not.mpr hbytes)
      · unfold Prepare.shown Block.shown
        rw [Shown.mk.injEq]
        exact ⟨hclaims.segment, hclaims.position, hclaims.physicalBegin, hclaims.stamps,
          info_of_bytes hbytes, hbytes⟩
    · refine .inr (.inr ⟨.child, ?_, hbytes⟩)
      rw [hcall]
      exact if_pos hbytes
  · rw [herror] at hcall
    exact .inr (.inl ⟨code, hcall, hrefused⟩)
  · rw [hdifference] at hcall
    refine .inr (.inr ⟨difference, ?_, hnames⟩)
    cases difference with
    | none => exact absurd hnames id
    | _ => exact hcall

/-- What is named is not the same. -/
theorem Names.ne {prepare block : Shown} {difference : CopyDifference}
    (h : Names prepare block difference) : prepare ≠ block := by
  rintro rfl
  cases difference with
  | none => exact h
  | target =>
    rcases h with h | h | h
    · exact h rfl
    · exact h rfl
    · exact h rfl
  | batchId => exact h rfl
  | originalBinding => exact h rfl
  | stamps =>
    rcases h with h | h
    · exact h rfl
    · exact h rfl
  | length => exact h rfl
  | child => exact h rfl

/-- What is named in two PREPAREs is seen in their identities, if the digest tells their bytes apart. -/
theorem Names.identity_ne {prepare other : Prepare read} {difference : CopyDifference}
    (h : Names prepare.shown other.shown difference) {hash : List UInt8 → δ}
    (hfree : hash prepare.bytes = hash other.bytes → prepare.bytes = other.bytes) :
    recoveryIdentity prepare (hash prepare.bytes) ≠ recoveryIdentity other (hash other.bytes) := by
  intro heq
  simp only [recoveryIdentity, CopyIdentity.mk.injEq] at heq
  obtain ⟨htarget, hid, hbinding, hstamps, htime, hlength, hchild⟩ := heq
  cases difference with
  | none => exact h
  | target =>
    rcases h with h | h | h
    · exact h (congrArg WriteContext.segment htarget)
    · exact h (congrArg WriteContext.position htarget)
    · exact h (congrArg WriteContext.physicalBegin htarget)
  | batchId => exact h hid
  | originalBinding => exact h hbinding
  | stamps =>
    rcases h with h | h
    · exact h hstamps
    · exact h htime
  | length => exact h hlength
  | child => exact h (hfree hchild)

/-- The digest stands for the bytes. -/
theorem compareRecoveryIdentity_eq [DecidableEq δ] {prepare : Prepare read} {block : Block read} {hash : List UInt8 → δ}
    (hfree : hash prepare.bytes = hash block.childBytes → prepare.bytes = block.childBytes) :
    compareRecoveryIdentity hash (recoveryIdentity prepare (hash prepare.bytes)) block =
      compareRecoveryCopies prepare block := by
  rw [compareRecoveryCopies_eq prepare block (hash prepare.bytes)]
  unfold compareRecoveryIdentity
  rcases claims_cases prepare block (hash prepare.bytes) with ⟨hnone, -, hrefused⟩ | ⟨code, herror, -⟩ |
    ⟨difference, hdifference, hnames, -⟩
  · rw [hnone]
    unfold Block.child
    rw [hrefused]
    show Except.ok (if hash block.childBytes = hash prepare.bytes then CopyDifference.none else .child) =
      if prepare.bytes ≠ block.childBytes then .ok .child else .ok .none
    by_cases hbytes : prepare.bytes = block.childBytes
    · rw [hbytes, if_pos rfl, if_neg (not_not.mpr rfl)]
    · rw [if_neg (fun h => hbytes (hfree h.symm)), if_pos hbytes]
  · rw [herror]
    rfl
  · rw [hdifference]
    cases difference with
    | none => exact absurd hnames id
    | _ => rfl

/-- **Comparing copies.** With the bytes at hand, or with the digest of them, the comparison answers none
    exactly for copies that show the same, and otherwise names a field in which they differ, and in which the
    identities of PREPAREs of them differ. The claims alone agree exactly where everything does but the bytes,
    and these have one length. What is decided is an equivalence. -/
theorem recovery_copies_compared [DecidableEq δ] (prepare : Prepare read) (block : Block read)
    (hash : List UInt8 → δ)
    (hfree : hash prepare.bytes = hash block.childBytes → prepare.bytes = block.childBytes) :
    (compareRecoveryCopies prepare block = .ok .none ↔
      Identical (.prepare prepare) (.block block) ∧ block.refused = none) ∧
    (compareRecoveryClaims (recoveryIdentity prepare (hash prepare.bytes)) block = .ok .none ↔
      Claims prepare.shown block.shown ∧ block.refused = none) ∧
    compareRecoveryIdentity hash (recoveryIdentity prepare (hash prepare.bytes)) block =
      compareRecoveryCopies prepare block ∧
    (∀ difference, compareRecoveryCopies prepare block = .ok difference → difference ≠ .none →
      Names prepare.shown block.shown difference ∧
      ∀ other : Prepare read, Identical (.prepare other) (.block block) →
        recoveryIdentity prepare (hash prepare.bytes) ≠ recoveryIdentity other (hash other.bytes)) ∧
    Equivalence (@Identical read) := by
  refine ⟨?_, ?_, compareRecoveryIdentity_eq hfree, ?_, ?_⟩
  · rcases copies_cases prepare block with ⟨hnone, hsame, hrefused⟩ | ⟨code, herror, hrefused⟩ |
      ⟨difference, hdifference, hnames⟩
    · exact iff_of_true hnone ⟨hsame, hrefused⟩
    · rw [herror, hrefused]
      exact iff_of_false nofun (fun h => nomatch h.2)
    · rw [hdifference]
      refine iff_of_false ?_ fun h => hnames.ne h.1
      rintro ⟨⟩
      exact hnames
  · rcases claims_cases prepare block (hash prepare.bytes) with ⟨hnone, hclaims, hrefused⟩ |
      ⟨code, herror, hrefused⟩ | ⟨difference, hdifference, hnames, hchild⟩
    · exact iff_of_true hnone ⟨hclaims, hrefused⟩
    · rw [herror, hrefused]
      exact iff_of_false nofun (fun h => nomatch h.2)
    · rw [hdifference]
      refine iff_of_false ?_ fun h => h.1.not_names hchild hnames
      rintro ⟨⟩
      exact hnames
  · intro difference hanswer hsome
    rcases copies_cases prepare block with ⟨hnone, -, -⟩ | ⟨code, herror, -⟩ | ⟨named, hnamed, hnames⟩
    · rw [hnone] at hanswer
      exact absurd (Except.ok.inj hanswer).symm hsome
    · rw [herror] at hanswer
      cases hanswer
    · rw [hnamed] at hanswer
      cases hanswer
      refine ⟨hnames, fun other hother => ?_⟩
      have hshown : other.shown = block.shown := hother
      have hbytes : other.bytes = block.childBytes := congrArg Shown.bytes hshown
      rw [← hshown] at hnames
      rw [← hbytes] at hfree
      exact hnames.identity_ne hfree
  · exact ⟨fun _ => rfl, Eq.symm, Eq.trans⟩

/-! ## Two batches with one identity -/

/-- A codec of batches of one stream, whose fingerprint is their first byte. -/
def exampleRead (bytes : List UInt8) : Option BatchInfo :=
  some ⟨3, ⟨1, 2, 4, 1, 9⟩, 1, 1, ⟨10, 11⟩, (bytes.headD 0).toNat, 5⟩

def exampleContext : SegmentContext := ⟨7, 1, 2, 4, 1⟩

def examplePrepare : Prepare exampleRead :=
  ⟨⟨exampleContext, 4096, 0, 4096⟩, ⟨true, 6, 4096, 8192⟩, ⟨3, ⟨1, 2, 4, 1, 9⟩, 1, 1, ⟨10, 11⟩, 1, 5⟩, [1, 2],
    rfl⟩

/-- A block in the slot of the PREPARE, with other bytes. -/
def exampleBlock : Block exampleRead :=
  ⟨⟨exampleContext, ⟨0, 1⟩, ⟨4096, 8192⟩, ⟨3, ⟨1, 2, 4, 1, 9⟩, 1, 1, ⟨10, 11⟩, 8, 5⟩, ⟨6, 4096⟩⟩, [8, 2], none,
    rfl⟩

theorem recovery_claims_agree_of_other_child :
    compareRecoveryClaims (recoveryIdentity examplePrepare examplePrepare.bytes) exampleBlock = .ok .none ∧
      examplePrepare.bytes ≠ exampleBlock.childBytes := by
  decide

theorem recovery_copies_compared_example :
    compareRecoveryCopies examplePrepare exampleBlock = .ok .child ∧
      Names examplePrepare.shown exampleBlock.shown .child := by
  have hanswer : compareRecoveryCopies examplePrepare exampleBlock = .ok .child := by decide
  exact ⟨hanswer, ((recovery_copies_compared examplePrepare exampleBlock id id).2.2.2.1 _ hanswer
    (by decide)).1⟩

end KwaqueStorage.Recovery
