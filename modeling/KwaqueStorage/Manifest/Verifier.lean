import KwaqueStorage.Lib.Tiling
import KwaqueStorage.Manifest.Format

/-!
# Walking the pages of a manifest

`range_manifest_verifier` is given the pages of a root in order, each against where the last one ended and
its latest append time. It hands out each page it accepts and keeps none; only `finish` says that all pages
were supplied and that they reach the root's end. Every failure closes it.

What a finished walk has handed out is a partition of the root's span: the entries of the pages, one after
another, are joined from the root's beginning to its end, as many as the root counts, and never go back in
append time. An abort, a parser without a free mark or memory that is short can fail a call; the calls
carry what they do.
-/

namespace KwaqueStorage.Manifest

open Codec Layout Lib RetryPages

/-! ## The verifier -/

/-- `range_manifest_verifier::state`. -/
inductive WalkState
  | open_
  | active
  | closed
  deriving DecidableEq

/-- `range_manifest_verifier`. -/
structure Verifier where
  root : RangeManifestRoot
  policy : CodecLimits
  end_ : Fin (2 ^ 64)
  latest : Int64 := 0
  next : Nat := 0
  state : WalkState := .open_

/-- `verified_range_manifest_pages`. -/
structure VerifiedPages where
  rootDigest : Nat
  entryCount : Nat
  deriving DecidableEq

/-- What a call is made with: the policy of its work, and where what is outside the verifier stops it. -/
structure Work where
  policy : CodecLimits
  /-- The poll at the entrance. -/
  polled : Except Errc Unit := .ok ()
  /-- `push_checkpoint`. -/
  marked : Except Errc Unit := .ok ()
  /-- Memory or an abort inside the decoder. -/
  decoded : Except Errc Unit := .ok ()
  /-- The poll after it. -/
  settled : Except Errc Unit := .ok ()

namespace Verifier

/-- The constructor. -/
def start (root : RangeManifestRoot) (policy : CodecLimits) : Verifier :=
  { root, policy, end_ := root.header.logical.begin_ }

def close (v : Verifier) : Verifier := { v with state := .closed }

/-- The checks of `ready` on an open verifier. -/
def checkReady (v : Verifier) (work : Work) : Except Errc Unit := do
  require (work.policy = v.policy ∧ (v.root.header.entryCount = 0 ↔ v.root.pages = [])) .invalidArgument
  checkCounts v.root.header v.policy.toLimits
  work.polled

/-- `ready`. -/
def ready (v : Verifier) (work : Work) : Verifier × Except Errc Unit :=
  match v.state with
  | .open_ =>
    match v.checkReady work with
    | .ok () => (v, .ok ())
    | .error e => (v.close, .error e)
  | _ => (v, .error .closed)

/-- The latest append time after the entries of a page. -/
def latestOf (entries : List RangeManifestEntry) (latest : Int64) : Int64 :=
  entries.foldl (fun latest entry => if entry.physical.isEmpty then latest else entry.maxAppendTime) latest

/-- The decoding of `next`, with what can stop it. -/
def decodeNext (digests : Digests) (v : Verifier) (work : Work) (boundary : InputBoundary)
    (input : List UInt8) : Except Errc (RangeManifestPage × Nat) := do
  work.decoded
  let output ← decodePage digests work.policy boundary v.root v.next input (some v.end_) v.latest
  work.settled
  pure output

/-- The verifier after a page. -/
def advance (v : Verifier) (page : RangeManifestPage) : Verifier :=
  { v with end_ := page.header.logical.end_, latest := latestOf page.entries v.latest,
           next := v.next + 1, state := .open_ }

/-- `next`, once it is ready. -/
def take (digests : Digests) (v : Verifier) (work : Work) (boundary : InputBoundary)
    (input : List UInt8) : Verifier × Except Errc (RangeManifestPage × Nat) :=
  if v.next = v.root.pages.length then (v.close, .error .malformedData)
  else
    match work.marked with
    | .error e => (v.close, .error e)
    | .ok () =>
      -- the walk is active while it decodes, so no other call enters
      match decodeNext digests { v with state := .active } work boundary input with
      | .error e => (v.close, .error e)
      | .ok (page, taken) => (v.advance page, .ok (page, taken))

/-- `next`. -/
def next_ (digests : Digests) (v : Verifier) (work : Work) (boundary : InputBoundary)
    (input : List UInt8) : Verifier × Except Errc (RangeManifestPage × Nat) :=
  match v.ready work with
  | (v, .error e) => (v, .error e)
  | (v, .ok ()) => v.take digests work boundary input

/-- `finish`. -/
def finish (v : Verifier) (work : Work) : Verifier × Except Errc VerifiedPages :=
  match v.ready work with
  | (v, .error e) => (v, .error e)
  | (v, .ok ()) =>
    if v.next = v.root.pages.length ∧ v.end_ = v.root.header.logical.end_ then
      (v.close, .ok ⟨v.root.digest, v.root.header.entryCount⟩)
    else (v.close, .error .malformedData)

/-! ## Runs of calls -/

/-- A call of the verifier. One is active at a time. -/
inductive Call
  | next (work : Work) (boundary : InputBoundary) (input : List UInt8)
  | finish (work : Work)

/-- What a call answers. -/
inductive Answer
  | page (result : Except Errc (RangeManifestPage × Nat))
  | verified (result : Except Errc VerifiedPages)

/-- Whether a call failed. -/
def Answer.failed : Answer → Bool
  | page (.error _) => true
  | verified (.error _) => true
  | _ => false

/-- The entries a call handed out. -/
def Answer.entries : Answer → List RangeManifestEntry
  | page (.ok (given, _)) => given.entries
  | _ => []

def call (digests : Digests) (v : Verifier) : Call → Verifier × Answer
  | .next work boundary input =>
    let (v', result) := v.next_ digests work boundary input
    (v', .page result)
  | .finish work =>
    let (v', result) := v.finish work
    (v', .verified result)

/-- The calls of a list, one after another, and what they answer. -/
def run (digests : Digests) : Verifier → List Call → Verifier × List Answer
  | v, [] => (v, [])
  | v, c :: rest =>
    let (v', answer) := v.call digests c
    let (last, answers) := run digests v' rest
    (last, answer :: answers)

end Verifier

/-! ## Entries in order -/

/-- The logical records of entries. -/
def pieces (entries : List RangeManifestEntry) : List (Nat × Nat) :=
  entries.map fun entry => (entry.logical.begin_.val, entry.logical.end_.val)

/-- `append_ordered` over entries. -/
def appendThrough (entries : List RangeManifestEntry) (latest : Int64) : Option Int64 :=
  entries.foldlM (fun latest entry => appendOrdered entry latest) latest

/-- An entry that holds records. -/
def RangeManifestEntry.holds (entry : RangeManifestEntry) : Bool := !entry.physical.isEmpty

/-- **Append times never go back** among the entries that hold records. -/
def AppendSorted (entries : List RangeManifestEntry) : Prop :=
  (entries.filter RangeManifestEntry.holds).Pairwise fun first second =>
    first.maxAppendTime ≤ second.maxAppendTime

section Order

variable {entries more : List RangeManifestEntry} {entry : RangeManifestEntry} {latest later : Int64}

theorem appendThrough_append :
    appendThrough (entries ++ more) latest = (appendThrough entries latest).bind (appendThrough more) :=
  List.foldlM_append

theorem appendOrdered_eq_some :
    appendOrdered entry latest = some later
      ↔ (entry.holds = true → latest ≤ entry.maxAppendTime)
        ∧ later = if entry.physical.isEmpty then latest else entry.maxAppendTime := by
  unfold appendOrdered RangeManifestEntry.holds
  cases entry.physical.isEmpty with
  | true => simp [eq_comm]
  | false =>
    simp only [Bool.false_eq_true, if_false, Bool.not_false, true_implies]
    by_cases h : entry.maxAppendTime < latest
    · rw [if_pos h]
      exact iff_of_false nofun fun hle => absurd hle.1 (Int64.not_le.mpr h)
    · rw [if_neg h]
      simp [Int64.not_lt.mp h, eq_comm]

theorem AppendSorted.nil : AppendSorted [] := List.Pairwise.nil

theorem appendSorted_cons :
    AppendSorted (entry :: more)
      ↔ (entry.holds = true → ∀ other ∈ more, other.holds = true
          → entry.maxAppendTime ≤ other.maxAppendTime)
        ∧ AppendSorted more := by
  unfold AppendSorted
  cases hholds : entry.holds with
  | true =>
    rw [List.filter_cons_of_pos hholds, List.pairwise_cons]
    simp only [List.mem_filter, and_imp, true_implies]
  | false =>
    rw [List.filter_cons_of_neg (by rw [hholds]; exact Bool.false_ne_true)]
    simp only [Bool.false_eq_true, false_implies, true_and]

/-- **What `append_ordered` accepts**: times that never go back, none before the latest it began with. -/
theorem appendThrough_eq_some :
    appendThrough entries latest = some later
      ↔ AppendSorted entries
        ∧ (∀ entry ∈ entries, entry.holds = true → latest ≤ entry.maxAppendTime)
        ∧ later = Verifier.latestOf entries latest := by
  induction entries generalizing latest with
  | nil =>
    constructor
    · intro h
      cases h
      exact ⟨AppendSorted.nil, by simp, rfl⟩
    · rintro ⟨_, _, rfl⟩
      rfl
  | cons entry rest ih =>
    have hstep : appendThrough (entry :: rest) latest = some later
        ↔ ∃ mid, appendOrdered entry latest = some mid ∧ appendThrough rest mid = some later := by
      unfold appendThrough
      rw [List.foldlM_cons]
      exact Option.bind_eq_some_iff
    rw [hstep, appendSorted_cons]
    constructor
    · rintro ⟨mid, hmid, hrest⟩
      obtain ⟨hle, rfl⟩ := appendOrdered_eq_some.mp hmid
      obtain ⟨hsorted, hafter, hlater⟩ := ih.mp hrest
      have hown : entry.holds = true → ∀ other ∈ rest, other.holds = true
          → entry.maxAppendTime ≤ other.maxAppendTime := by
        intro hholds other hmem hother
        have hle := hafter other hmem hother
        rwa [if_neg (by simpa [RangeManifestEntry.holds] using hholds)] at hle
      refine ⟨⟨hown, hsorted⟩, ?_, hlater⟩
      intro other hmem hother
      rcases List.mem_cons.mp hmem with rfl | hmem
      · exact hle hother
      · cases hholds : entry.holds with
        | true => exact Int64.le_trans (hle hholds) (hown hholds other hmem hother)
        | false =>
          have hle := hafter other hmem hother
          rwa [if_pos (by simpa [RangeManifestEntry.holds] using hholds)] at hle
    · rintro ⟨⟨hown, hsorted⟩, hafter, hlater⟩
      refine ⟨_, appendOrdered_eq_some.mpr ⟨hafter entry (List.mem_cons_self ..), rfl⟩,
        ih.mpr ⟨hsorted, ?_, hlater⟩⟩
      intro other hmem hother
      split
      next => exact hafter other (List.mem_cons_of_mem _ hmem) hother
      next hholds =>
        exact hown (by simpa [RangeManifestEntry.holds] using hholds) other hmem hother

end Order

end KwaqueStorage.Manifest
