import Mathlib

/-!
# The verdict table of a segment group

`local_append_verdict.cc`: when a group's result is decided, four facts decide it — where
it was placed, what the WAL said, how far its segment got, and how the groups before it
were published. The table below is the source's, row for row, with each bit set spelled
as the list of values it holds.

The source scans the whole table and holds that exactly one row matches and that it is
not an `impossible` one. `classify_total` settles the first half once, for every
combination of the four; what is left for the owner is that it never produces an
impossible combination, which is a fact about its runs.
-/

namespace KwaqueStorage.Append

/-- Where a group makes one segment's requests durable before they are reported. -/
inductive Placement
  | wal
  | segment
  deriving DecidableEq

/-- The WAL side of one segment group when its result is decided. -/
inductive WalState
  | none
  | deciding
  | refused
  | unknown
  | pending
  | durable
  | failed
  deriving DecidableEq

/-- The segment side of one segment group. -/
inductive SegmentState
  | unfrozen
  | frozen
  | dropped
  | submitted
  | durable
  | failed
  deriving DecidableEq

/-- How the earlier groups of its segment were published. -/
inductive EarlierState
  | durable
  | failed
  deriving DecidableEq

inductive Verdict
  | wait
  | durable
  | notWritten
  | uncertain
  | impossible
  deriving DecidableEq

/-- One row: the values of each of the four facts that it covers. -/
structure VerdictCase where
  label : String
  verdict : Verdict
  placements : List Placement
  wal : List WalState
  segment : List SegmentState
  earlier : List EarlierState
  deriving DecidableEq

def VerdictCase.matches (c : VerdictCase) (placement : Placement) (wal : WalState)
    (segment : SegmentState) (earlier : EarlierState) : Bool :=
  c.placements.contains placement && c.wal.contains wal && c.segment.contains segment
    && c.earlier.contains earlier

section Table

open WalState SegmentState

private def anyPlacement : List Placement := [.wal, .segment]
private def anyEarlier : List EarlierState := [.durable, .failed]
private def accepted : List WalState := [pending, durable, failed]
private def offered : List WalState := [deciding, refused, unknown, pending, durable, failed]
private def inOrder : List SegmentState := [frozen, dropped, submitted, durable, failed]

/-- `cases`, in the order of the source. -/
def verdictCases : List VerdictCase :=
  [ -- A group that never froze: no PREPARE and no segment byte.
    ⟨"@unfrozen", .notWritten, anyPlacement, [none], [unfrozen], anyEarlier⟩,
    ⟨"@unfrozen_offered", .impossible, anyPlacement, offered, [unfrozen], anyEarlier⟩,
    -- Only a WAL-placed group offers members, and every frozen one does.
    ⟨"@segment_offered", .impossible, [.segment], offered, inOrder, anyEarlier⟩,
    ⟨"@wal_unoffered", .impossible, [.wal], [none], inOrder, anyEarlier⟩,
    ⟨"@unanswered_settled", .impossible, [.wal], [deciding],
      [dropped, submitted, durable, failed], anyEarlier⟩,
    ⟨"@refused_submitted", .impossible, [.wal], [refused, unknown],
      [submitted, durable, failed], anyEarlier⟩,
    -- Segment-placed: durable only by its own segment's barrier.
    ⟨"@segment_frozen", .wait, [.segment], [none], [frozen], anyEarlier⟩,
    ⟨"@segment_unsynced", .wait, [.segment], [none], [submitted], [.durable]⟩,
    ⟨"@segment_dropped", .notWritten, [.segment], [none], [dropped], anyEarlier⟩,
    ⟨"@segment_durable", .durable, [.segment], [none], [durable], [.durable]⟩,
    ⟨"@segment_failed", .uncertain, [.segment], [none], [failed], anyEarlier⟩,
    ⟨"@segment_after_failure", .uncertain, [.segment], [none], [submitted, durable], [.failed]⟩,
    -- WAL-placed, before or without the WAL's acceptance.
    ⟨"@wal_unanswered", .wait, [.wal], [deciding, refused, unknown], [frozen], anyEarlier⟩,
    ⟨"@wal_refused", .notWritten, [.wal], [refused], [dropped], anyEarlier⟩,
    ⟨"@wal_unknown", .uncertain, [.wal], [unknown], [dropped], anyEarlier⟩,
    -- WAL-placed and accepted: durable by its WAL barrier, or by one of its segment.
    ⟨"@wal_durable", .durable, [.wal], [durable], inOrder, [.durable]⟩,
    ⟨"@wal_covered", .durable, [.wal], [pending, failed], [durable], [.durable]⟩,
    ⟨"@wal_waiting", .wait, [.wal], [pending, failed], [frozen, submitted], [.durable]⟩,
    ⟨"@wal_unsynced", .wait, [.wal], [pending], [dropped, failed], [.durable]⟩,
    ⟨"@wal_failed", .uncertain, [.wal], [failed], [dropped, failed], [.durable]⟩,
    ⟨"@wal_after_failure", .uncertain, [.wal], accepted, inOrder, [.failed]⟩ ]

end Table

/-- The three invariants `classify_local_append` holds. -/
inductive VerdictInvariant
  | unique
  | exhaustive
  | possible
  deriving DecidableEq

/-- The scan: the row found so far, or the invariant a second match breaks. -/
def scanCases (placement : Placement) (wal : WalState) (segment : SegmentState)
    (earlier : EarlierState) :
    List VerdictCase → Option VerdictCase → Except VerdictInvariant (Option VerdictCase)
  | [], found => .ok found
  | c :: rest, found =>
    if c.matches placement wal segment earlier then
      match found with
      | some _ => .error .unique
      | none => scanCases placement wal segment earlier rest (some c)
    else scanCases placement wal segment earlier rest found

def classifyLocalAppend (placement : Placement) (wal : WalState) (segment : SegmentState)
    (earlier : EarlierState) : Except VerdictInvariant VerdictCase :=
  match scanCases placement wal segment earlier verdictCases none with
  | .error broken => .error broken
  | .ok none => .error .exhaustive
  | .ok (some found) => if found.verdict = .impossible then .error .possible else .ok found

/-! ## What the table says

The two lemmas the owner's proofs use, both over every combination: the scan always ends
at one row, and the rows by verdict. -/

theorem classify_total (p : Placement) (w : WalState) (g : SegmentState) (e : EarlierState) :
    ∃ c ∈ verdictCases, scanCases p w g e verdictCases none = .ok (some c) := by
  cases p <;> cases w <;> cases g <;> cases e <;> exact ⟨_, by decide, rfl⟩

/-- The combinations the owner must never produce. -/
def Impossible : Placement → WalState → SegmentState → Prop
  | _, w, .unfrozen => w ≠ .none
  | .segment, w, _ => w ≠ .none
  | .wal, .none, _ => True
  | .wal, .deciding, g => g ≠ .frozen
  | .wal, .refused, g | .wal, .unknown, g => g ≠ .frozen ∧ g ≠ .dropped
  | .wal, _, _ => False

/-- A possible combination is classified. -/
theorem classify_ok {p : Placement} {w : WalState} {g : SegmentState} {e : EarlierState}
    (h : ¬ Impossible p w g) : ∃ c ∈ verdictCases, classifyLocalAppend p w g e = .ok c := by
  cases p <;> cases w <;> cases g <;> cases e <;>
    first
    | exact ⟨_, by decide, rfl⟩
    | exact absurd (by simp [Impossible]) h

/-- What a `durable` row says of the WAL and the segment. -/
theorem classify_durable {p : Placement} {w : WalState} {g : SegmentState} {e : EarlierState}
    {c : VerdictCase} (h : classifyLocalAppend p w g e = .ok c) (hv : c.verdict = .durable) :
    e = .durable ∧ (p = .wal ∧ w = .durable ∨ g = .durable) := by
  have hd : (classifyLocalAppend p w g e).toOption.map (·.verdict) = some .durable := by
    rw [h, ← hv]; rfl
  clear h hv
  cases p <;> cases w <;> cases g <;> cases e <;> revert hd <;> decide

/-- What a `not_written` row says of them. -/
theorem classify_notWritten {p : Placement} {w : WalState} {g : SegmentState}
    {e : EarlierState} {c : VerdictCase} (h : classifyLocalAppend p w g e = .ok c)
    (hv : c.verdict = .notWritten) :
    g = .unfrozen ∨ g = .dropped ∧ (w = .refused ∨ p = .segment ∧ w = .none) := by
  have hd : (classifyLocalAppend p w g e).toOption.map (·.verdict) = some .notWritten := by
    rw [h, ← hv]; rfl
  clear h hv
  cases p <;> cases w <;> cases g <;> cases e <;> revert hd <;> decide

/-- A group that never froze is `not_written`. -/
theorem classify_unfrozen {p : Placement} {w : WalState} {e : EarlierState} {c : VerdictCase}
    (h : classifyLocalAppend p w .unfrozen e = .ok c) : c.verdict = .notWritten := by
  have hall : (classifyLocalAppend p w .unfrozen e).toOption.all (·.verdict = .notWritten) = true := by
    cases p <;> cases w <;> cases e <;> rfl
  rw [h] at hall
  exact of_decide_eq_true hall

theorem classify_not_impossible {p : Placement} {w : WalState} {g : SegmentState}
    {e : EarlierState} {c : VerdictCase} (h : classifyLocalAppend p w g e = .ok c) :
    c.verdict ≠ .impossible := by
  unfold classifyLocalAppend at h
  split at h
  · cases h
  · cases h
  · split at h
    · cases h
    · next hne =>
      cases h
      exact hne

end KwaqueStorage.Append
