import KwaqueStorage.Base.Types

/-!
# What retention may remove

`select_retention` walks the segments of a range from the oldest and stops at the first that may not go. Two
rules let a segment go: age, when it was sealed before a cutoff, and size, while the range holds its target
and would still hold it without the segment. Whatever a rule says, a segment past the bound stays, and so
does one that something on the shard needs.

The walk does not ask the size rule as it is written down. It keeps what the range held over its target when
the walk began, and takes from it what has gone since, down to zero. Once age has taken the range below its
target nothing is over it any more, and a segment of no bytes is no more than nothing: there the walk and
the rule part.
-/

namespace KwaqueStorage.Retention

/-- `UINT64_MAX`. -/
def u64Max : Nat := 2 ^ 64 - 1

/-- `retention_segment`, less the context it is named by. -/
structure Segment where
  end_ : Nat
  sealed : Option Int
  deriving DecidableEq

/-- `retention_need`. -/
inductive Need
  | none
  | unsealed
  | read
  | unknown
  deriving DecidableEq

/-- `retention_local`: what only the shard knows of a segment. -/
structure Facts where
  bytes : Nat := 0
  need : Need := .unknown
  going : Bool := false
  deriving DecidableEq

/-- `retention_stop`. -/
inductive Stop
  | exhausted
  | bound
  | kept
  | needed
  deriving DecidableEq

/-- `retention_request`. -/
structure Request where
  segments : List Segment
  cutoff : Option Int
  target : Option Nat
  bound : Nat
  deriving DecidableEq

/-- `retention_candidates`. -/
@[ext]
structure Candidates where
  count : Nat := 0
  bytes : Nat := 0
  stop : Stop := .exhausted
  need : Need := .none
  deriving DecidableEq

/-! ## The walk -/

/-- What the known segments hold, no more than a counter does. -/
def heldSaturated (facts : List Facts) : Nat :=
  facts.foldl (fun held f => if u64Max - held < f.bytes then u64Max else held + f.bytes) 0

/-- Whether the age rule lets a segment go. -/
def aged (request : Request) (segment : Segment) : Bool :=
  match request.cutoff, segment.sealed with
  | some cutoff, some time => decide (time < cutoff)
  | _, _ => false

/-- One more segment goes, and its bytes. -/
def Candidates.add (selected : Candidates) (bytes : Nat) : Candidates :=
  { selected with count := selected.count + 1, bytes := min u64Max (selected.bytes + bytes) }

/-- The loop of `select_retention`. What was not supplied is not known. -/
def walk (request : Request) (sized : Bool) :
    List Segment → List Facts → Nat → Candidates → Candidates
  | [], _, _, selected => selected
  | candidate :: rest, local_, excess, selected =>
    let facts := local_.headD {}
    if facts.going then
      walk request sized rest local_.tail excess { selected with count := selected.count + 1 }
    else
      let overTarget := sized && decide (facts.bytes ≤ excess)
      -- a segment the shard does not know has no bytes to ask the size rule with
      if facts.need ≠ .unknown ∧ aged request candidate = false ∧ overTarget = false then
        { selected with stop := .kept }
      else if request.bound < candidate.end_ then { selected with stop := .bound }
      else if facts.need ≠ .none then { selected with stop := .needed, need := facts.need }
      else
        walk request sized rest local_.tail (excess - min excess facts.bytes) (selected.add facts.bytes)

/-- `select_retention`. -/
def selectRetention (request : Request) (local_ : List Facts) : Candidates :=
  let held := heldSaturated (local_.take request.segments.length)
  let sized := request.target.any fun target => decide (target ≤ held)
  let excess := if sized then held - request.target.getD 0 else 0
  walk request sized request.segments local_ excess {}

/-! ## The rules -/

/-- A segment with what the shard knows of it. -/
abbrev Row := Segment × Facts

/-- The segments of a request, each with what the shard knows of it. -/
def rowsOf : List Segment → List Facts → List Row
  | [], _ => []
  | segment :: rest, local_ => (segment, local_.headD {}) :: rowsOf rest local_.tail

/-- What segments hold together. -/
def heldBy (rows : List Row) : Nat := (rows.map fun row => row.2.bytes).sum

/-- **The rules**, asked of a segment and the ones after it: it was sealed before the cutoff, or the segments
    not yet gone hold the target, and hold it without this one. -/
def Ruled (request : Request) (row : Row) (rest : List Row) : Prop :=
  aged request row.1 = true
    ∨ ∃ target ∈ request.target, target ≤ heldBy (row :: rest) ∧ target ≤ heldBy rest

/-- **A segment goes**: it is going already, or a rule lets it and neither the bound nor the shard keeps
    it. -/
def Goes (request : Request) (row : Row) (rest : List Row) : Prop :=
  row.2.going = true
    ∨ (Ruled request row rest ∧ row.1.end_ ≤ request.bound ∧ row.2.need = .none)

instance (request : Request) (row : Row) (rest : List Row) : Decidable (Ruled request row rest) := by
  unfold Ruled
  exact inferInstance

instance (request : Request) (row : Row) (rest : List Row) : Decidable (Goes request row rest) := by
  unfold Goes
  exact inferInstance

/-- Why a segment that does not go stays: the rules are asked first, of a segment the shard knows, and then
    the bound. -/
def reason (request : Request) (row : Row) (rest : List Row) : Stop × Need :=
  if row.2.need ≠ .unknown ∧ ¬ Ruled request row rest then (.kept, .none)
  else if request.bound < row.1.end_ then (.bound, .none)
  else (.needed, row.2.need)

/-- Every one of some segments goes at its turn, the others coming after them. -/
def AllGo (request : Request) (before after : List Row) : Prop :=
  ∀ a row b, before = a ++ row :: b → Goes request row (b ++ after)

/-- **What the walk selects**: the segments before the first that does not go, what they hold, and why that
    one stays. -/
def Selects (request : Request) (rows : List Row) (selected : Candidates) : Prop :=
  ∃ before after, rows = before ++ after ∧ AllGo request before after
    ∧ selected.count = before.length ∧ selected.bytes = heldBy before
    ∧ match after with
      | [] => selected.stop = .exhausted ∧ selected.need = .none
      | row :: rest => ¬ Goes request row rest ∧ (selected.stop, selected.need) = reason request row rest

/-- A segment the walk counts as over the target and the size rule does not: the range held its target at
    first, holds less by now, and the segment has no bytes. -/
def Hollow (request : Request) (total : Nat) (row : Row) (rest : List Row) : Prop :=
  row.2.going = false ∧ row.2.need ≠ .unknown ∧ aged request row.1 = false ∧ row.2.bytes = 0
    ∧ ∃ target ∈ request.target, heldBy rest < target ∧ target ≤ total

/-- **The walk meets no such segment.** -/
def Solid (request : Request) (total : Nat) (rows : List Row) : Prop :=
  ∀ before row rest, rows = before ++ row :: rest → AllGo request before (row :: rest)
    → ¬ Hollow request total row rest

/-! ## One segment at a time -/

section Turns

variable {request : Request} {row : Row} {rows rest before after : List Row} {total excess : Nat}

theorem heldBy_cons : heldBy (row :: rest) = row.2.bytes + heldBy rest := by
  unfold heldBy
  rw [List.map_cons, List.sum_cons]

theorem allGo_nil : AllGo request [] after := by
  intro a row b h
  have hlength := congrArg List.length h
  rw [List.length_append, List.length_cons, List.length_nil] at hlength
  omega

theorem allGo_cons : AllGo request (row :: before) after
    ↔ Goes request row (before ++ after) ∧ AllGo request before after := by
  constructor
  · intro h
    refine ⟨h [] row before rfl, ?_⟩
    intro a row' b hsplit
    exact h (row :: a) row' b (by rw [hsplit, List.cons_append])
  · rintro ⟨hgoes, hall⟩ a row' b hsplit
    cases a with
    | nil =>
      cases hsplit
      exact hgoes
    | cons first a =>
      cases hsplit
      exact hall a row' b rfl

/-- The walk meets the first segment, and the others if it goes. -/
theorem solid_cons : Solid request total (row :: rest)
    ↔ ¬ Hollow request total row rest ∧ (Goes request row rest → Solid request total rest) := by
  constructor
  · intro h
    refine ⟨h [] row rest rfl allGo_nil, ?_⟩
    intro hgoes before row' after hsplit hall
    refine h (row :: before) row' after (by rw [hsplit, List.cons_append]) ?_
    rw [allGo_cons, ← hsplit]
    exact ⟨hgoes, hall⟩
  · rintro ⟨hrow, hrest⟩ before row' after hsplit hall
    cases before with
    | nil =>
      cases hsplit
      exact hrow
    | cons first before =>
      cases hsplit
      obtain ⟨hgoes, hall⟩ := allGo_cons.mp hall
      exact hrest hgoes before row' after rfl hall

/-- The rules as a walk, from what was selected before. -/
def choose (request : Request) : List Row → Candidates → Candidates
  | [], selected => selected
  | row :: rest, selected =>
    if Goes request row rest then
      choose request rest { selected with count := selected.count + 1, bytes := selected.bytes + row.2.bytes }
    else
      { selected with stop := (reason request row rest).1, need := (reason request row rest).2 }

/-- What a walk selects is decided by the rules. The induction is on the segments that are left. -/
theorem selects_choose {selected : Candidates} (hstop : selected.stop = .exhausted)
    (hneed : selected.need = .none) : ∃ before after, rows = before ++ after ∧ AllGo request before after
      ∧ (choose request rows selected).count = selected.count + before.length
      ∧ (choose request rows selected).bytes = selected.bytes + heldBy before
      ∧ match after with
        | [] => (choose request rows selected).stop = .exhausted
          ∧ (choose request rows selected).need = .none
        | row :: rest => ¬ Goes request row rest
          ∧ ((choose request rows selected).stop, (choose request rows selected).need)
            = reason request row rest := by
  induction rows generalizing selected with
  | nil => exact ⟨[], [], rfl, allGo_nil, rfl, rfl, hstop, hneed⟩
  | cons row rest ih =>
    unfold choose
    by_cases hgoes : Goes request row rest
    · rw [if_pos hgoes]
      obtain ⟨before, after, hsplit, hall, hcount, hbytes, hend⟩ := @ih
        { selected with count := selected.count + 1, bytes := selected.bytes + row.2.bytes } hstop hneed
      refine ⟨row :: before, after, by rw [hsplit, List.cons_append], ?_, ?_, ?_, hend⟩
      · rw [allGo_cons, ← hsplit]
        exact ⟨hgoes, hall⟩
      · rw [hcount, List.length_cons, Nat.add_assoc, Nat.add_comm 1]
      · rw [hbytes, heldBy_cons, Nat.add_assoc]
    · rw [if_neg hgoes]
      exact ⟨[], row :: rest, rfl, allGo_nil, rfl, rfl, hgoes, rfl⟩

/-- Two prefixes that go, each up to a segment that does not, are one. -/
theorem allGo_unique {before' after' : List Row} (h : before ++ after = before' ++ after')
    (hall : AllGo request before after) (hall' : AllGo request before' after')
    (hend : ∀ row rest, after = row :: rest → ¬ Goes request row rest)
    (hend' : ∀ row rest, after' = row :: rest → ¬ Goes request row rest) :
    before = before' ∧ after = after' := by
  induction before generalizing before' with
  | nil =>
    cases before' with
    | nil => exact ⟨rfl, h⟩
    | cons row before' =>
      have hgoes := (allGo_cons.mp hall').1
      exact absurd hgoes (hend row _ h)
  | cons row before ih =>
    cases before' with
    | nil =>
      have hgoes := (allGo_cons.mp hall).1
      exact absurd hgoes (hend' row _ h.symm)
    | cons row' before' =>
      rw [List.cons_append, List.cons_append, List.cons.injEq] at h
      obtain ⟨rfl, h⟩ := h
      obtain ⟨rfl, rfl⟩ := ih h (allGo_cons.mp hall).2 (allGo_cons.mp hall').2
      exact ⟨rfl, rfl⟩

/-- The end of a selection is a segment that does not go. -/
theorem not_goes_of_end {selected : Candidates}
    (h : match after with
      | [] => selected.stop = .exhausted ∧ selected.need = .none
      | row :: rest => ¬ Goes request row rest ∧ (selected.stop, selected.need) = reason request row rest) :
    ∀ row rest, after = row :: rest → ¬ Goes request row rest := by
  intro row rest hafter
  subst hafter
  exact h.1

theorem selects_iff {selected : Candidates} :
    Selects request rows selected ↔ selected = choose request rows {} := by
  obtain ⟨before, after, hsplit, hall, hcount, hbytes, hend⟩ := @selects_choose request rows {} rfl rfl
  rw [Nat.zero_add] at hcount hbytes
  constructor
  · rintro ⟨before', after', hsplit', hall', hcount', hbytes', hend'⟩
    obtain ⟨rfl, rfl⟩ := allGo_unique (hsplit.symm.trans hsplit') hall hall' (not_goes_of_end hend)
      (not_goes_of_end hend')
    have hwhy : (selected.stop, selected.need)
        = ((choose request rows {}).stop, (choose request rows {}).need) := by
      cases after with
      | nil => rw [hend.1, hend.2, hend'.1, hend'.2]
      | cons row rest => rw [hend.2, hend'.2]
    obtain ⟨hstop, hneed⟩ := Prod.mk.inj hwhy
    exact Candidates.ext (hcount'.trans hcount.symm) (hbytes'.trans hbytes.symm) hstop hneed
  · rintro rfl
    exact ⟨before, after, hsplit, hall, hcount, hbytes, hend⟩

end Turns

/-! ## The walk against the rules -/

section Walk

variable {request : Request} {sized : Bool} {total : Nat}

theorem walk_count_le : ∀ {segments : List Segment} {local_ : List Facts} {excess : Nat}
    {selected : Candidates}, selected.count ≤ (walk request sized segments local_ excess selected).count := by
  intro segments
  induction segments with
  | nil => exact fun {_ _ _} => Nat.le_refl _
  | cons candidate rest ih =>
    intro local_ excess selected
    unfold walk
    dsimp only
    split
    next =>
      have hle := @ih local_.tail excess { selected with count := selected.count + 1 }
      exact (Nat.le_succ _).trans hle
    next =>
      split
      next => exact Nat.le_refl _
      next =>
        split
        next => exact Nat.le_refl _
        next =>
          split
          next => exact Nat.le_refl _
          next =>
            have hle := @ih local_.tail (excess - min excess (local_.headD {}).bytes)
              (selected.add (local_.headD {}).bytes)
            exact (Nat.le_succ _).trans hle

/-- What is over the target, less a segment's bytes, is what the others hold over it. -/
theorem excess_after {bytes others target : Nat} :
    bytes + others - target - min (bytes + others - target) bytes = others - target := by
  omega

variable {rest : List Row}

/-- **The walk's size rule** is the one written down, or counts a segment of no bytes as nothing over the
    target. -/
theorem overTarget_iff {row : Row} {excess : Nat}
    (hsized : sized = request.target.any fun target => decide (target ≤ total))
    (hexcess : ∀ target ∈ request.target, sized = true → excess = heldBy (row :: rest) - target)
    (hle : heldBy (row :: rest) ≤ total) :
    (sized && decide (row.2.bytes ≤ excess)) = true
      ↔ (∃ target ∈ request.target, target ≤ heldBy (row :: rest) ∧ target ≤ heldBy rest)
        ∨ (row.2.bytes = 0 ∧ ∃ target ∈ request.target, heldBy rest < target ∧ target ≤ total) := by
  cases htarget : request.target with
  | none =>
    have hfalse : sized = false := by rw [hsized, htarget, Option.any_none]
    rw [hfalse]
    simp
  | some target =>
    have hmeans : sized = true ↔ target ≤ total := by
      rw [hsized, htarget, Option.any_some, decide_eq_true_iff]
    have hheld := @heldBy_cons row rest
    rw [Bool.and_eq_true, decide_eq_true_iff, hmeans]
    simp only [Option.mem_some_iff, exists_eq_left']
    constructor
    · rintro ⟨htotal, hbytes⟩
      rw [hexcess target htarget (hmeans.mpr htotal)] at hbytes
      omega
    · rintro (⟨hboth, hrest⟩ | ⟨hzero, hless, htotal⟩)
      · refine ⟨hboth.trans hle, ?_⟩
        rw [hexcess target htarget (hmeans.mpr (hboth.trans hle))]
        omega
      · exact ⟨htotal, by omega⟩

/-- What the walk makes of a segment: nothing when it goes, else why it stays. -/
def verdict (request : Request) (sized : Bool) (excess : Nat) (row : Row) : Option (Stop × Need) :=
  if row.2.going then none
  else if row.2.need ≠ .unknown ∧ aged request row.1 = false
      ∧ (sized && decide (row.2.bytes ≤ excess)) = false then some (.kept, .none)
  else if request.bound < row.1.end_ then some (.bound, .none)
  else if row.2.need ≠ .none then some (.needed, row.2.need)
  else none

/-- What the rules make of it. -/
def ruling (request : Request) (row : Row) (rest : List Row) : Option (Stop × Need) :=
  if Goes request row rest then none else some (reason request row rest)

theorem walk_cons {candidate : Segment} {more : List Segment} {local_ : List Facts} {excess : Nat}
    {selected : Candidates} (hneed : selected.need = .none) :
    walk request sized (candidate :: more) local_ excess selected
      = match verdict request sized excess (candidate, local_.headD {}) with
        | some (stop, need) => { selected with stop, need }
        | none =>
          if (local_.headD {}).going then
            walk request sized more local_.tail excess { selected with count := selected.count + 1 }
          else walk request sized more local_.tail (excess - min excess (local_.headD {}).bytes)
            (selected.add (local_.headD {}).bytes) := by
  rw [walk]
  unfold verdict
  dsimp only
  by_cases hgoing : (local_.headD {}).going = true
  · simp only [hgoing, if_true]
  · simp only [hgoing, if_false, Bool.false_eq_true]
    split
    next => rw [hneed]
    next =>
      split
      next => rw [hneed]
      next =>
        split
        next => rfl
        next => rfl

/-- A segment no rule selects, of those that are not going already, stays. -/
theorem ruling_of_not_ruled {row : Row} (hgoing : row.2.going = false) (h : ¬ Ruled request row rest)
    (hknown : row.2.need ≠ .unknown) :
    ruling request row rest = some (.kept, .none) := by
  unfold ruling reason
  rw [if_neg, if_pos ⟨hknown, h⟩]
  rintro (hyes | ⟨hyes, _⟩)
  · exact absurd (hgoing.symm.trans hyes) (by decide)
  · exact h hyes

/-- Where the rules are passed both sides ask the bound, and then the shard. -/
theorem ruling_of_passed {row : Row} (hgoing : row.2.going = false)
    (h : row.2.need = .unknown ∨ Ruled request row rest) :
    ruling request row rest = if request.bound < row.1.end_ then some (.bound, .none)
      else if row.2.need ≠ .none then some (.needed, row.2.need) else none := by
  have hpassed : ¬ (row.2.need ≠ .unknown ∧ ¬ Ruled request row rest) := by
    rintro ⟨hknown, hnot⟩
    rcases h with hunknown | hruled
    · exact hknown hunknown
    · exact hnot hruled
  unfold ruling reason
  rw [if_neg hpassed]
  by_cases hgoes : Goes request row rest
  · rw [if_pos hgoes]
    rcases hgoes with hyes | ⟨_, hbound, hneed⟩
    · exact absurd (hgoing.symm.trans hyes) (by decide)
    · rw [if_neg (Nat.not_lt.mpr hbound), if_neg (fun hne => hne hneed)]
  · rw [if_neg hgoes]
    by_cases hbound : request.bound < row.1.end_
    · rw [if_pos hbound, if_pos hbound]
    · rw [if_neg hbound, if_neg hbound, if_pos]
      intro hneed
      refine hgoes (.inr ⟨?_, Nat.not_lt.mp hbound, hneed⟩)
      rcases h with hunknown | hruled
      · rw [hneed] at hunknown
        cases hunknown
      · exact hruled

/-- **Of one segment** the walk makes what the rules make, unless it is a hollow one, which the rules
    keep. -/
theorem verdict_eq_iff {row : Row} {excess : Nat}
    (hover : (sized && decide (row.2.bytes ≤ excess)) = true ↔ (∃ target ∈ request.target, target ≤ heldBy (row :: rest) ∧ target ≤ heldBy rest) ∨ (row.2.bytes = 0 ∧ ∃ target ∈ request.target, heldBy rest < target ∧ target ≤ total))
    :
    verdict request sized excess row = ruling request row rest ↔ ¬ Hollow request total row rest := by
  cases hgoing : row.2.going with
  | true =>
    have hgoes : Goes request row rest := .inl hgoing
    unfold verdict ruling
    rw [if_pos hgoing, if_pos hgoes]
    refine iff_of_true rfl ?_
    rintro ⟨hfalse, _⟩
    exact absurd (hgoing.symm.trans hfalse) (by decide)
  | false =>
    have hfront : verdict request sized excess row
        = if row.2.need ≠ .unknown ∧ aged request row.1 = false
            ∧ (sized && decide (row.2.bytes ≤ excess)) = false then some (.kept, .none)
          else if request.bound < row.1.end_ then some (.bound, .none)
          else if row.2.need ≠ .none then some (.needed, row.2.need) else none := by
      unfold verdict
      rw [if_neg (by rw [hgoing]; decide)]
    rw [hfront]
    by_cases hknown : row.2.need = .unknown
    · rw [ruling_of_passed hgoing (.inl hknown), if_neg (fun h => h.1 hknown)]
      exact iff_of_true rfl fun h => h.2.1 hknown
    by_cases hruled : Ruled request row rest
    · rw [ruling_of_passed hgoing (.inr hruled), if_neg]
      · refine iff_of_true rfl ?_
        rintro ⟨_, _, hyoung, _, target, htarget, hless, _⟩
        rcases hruled with hage | ⟨target', htarget', _, hmore⟩
        · exact absurd (hage.symm.trans hyoung) (by decide)
        · rw [Option.mem_def] at htarget htarget'
          obtain rfl := Option.some.inj (htarget.symm.trans htarget')
          exact absurd hless (Nat.not_lt.mpr hmore)
      · rintro ⟨_, hyoung, hunder⟩
        rcases hruled with hage | hsize
        · exact absurd (hage.symm.trans hyoung) (by decide)
        · exact absurd ((hover.mpr (.inl hsize)).symm.trans hunder) (by decide)
    · have hyoung : aged request row.1 = false := by
        rw [← Bool.not_eq_true]
        exact fun hage => hruled (.inl hage)
      rw [ruling_of_not_ruled hgoing hruled hknown]
      by_cases hhollow : Hollow request total row rest
      · have hcounted : (sized && decide (row.2.bytes ≤ excess)) = true :=
          hover.mpr (.inr ⟨hhollow.2.2.2.1, hhollow.2.2.2.2⟩)
        rw [if_neg (fun h => absurd (hcounted.symm.trans h.2.2) (by decide))]
        refine iff_of_false ?_ (not_not_intro hhollow)
        split
        next => exact nofun
        next =>
          split
          next => exact nofun
          next => exact nofun
      · rw [if_pos]
        · exact iff_of_true rfl hhollow
        · refine ⟨hknown, hyoung, ?_⟩
          rw [← Bool.not_eq_true]
          intro htrue
          rcases hover.mp htrue with hsize | ⟨hzero, hless⟩
          · exact hruled (.inr hsize)
          · exact hhollow ⟨hgoing, hknown, hyoung, hzero, hless⟩

theorem choose_cons {row : Row} {selected : Candidates} :
    choose request (row :: rest) selected
      = match ruling request row rest with
        | some (stop, need) => { selected with stop, need }
        | none => choose request rest
            { selected with count := selected.count + 1, bytes := selected.bytes + row.2.bytes } := by
  rw [choose]
  unfold ruling
  split
  next => rfl
  next => rfl

/-- A hollow segment is kept by the rules; the walk takes it or names another reason. -/
theorem walk_hollow {candidate : Segment} {more : List Segment} {local_ : List Facts} {excess : Nat}
    {selected : Candidates} (hneed : selected.need = .none)
    (hhollow : Hollow request total (candidate, local_.headD {}) rest)
    (h : verdict request sized excess (candidate, local_.headD {}) ≠ ruling request (candidate, local_.headD {}) rest)
    :
    walk request sized (candidate :: more) local_ excess selected
      ≠ choose request ((candidate, local_.headD {}) :: rest) selected := by
  obtain ⟨hgoing, hknown, hyoung, hzero, target, htarget, hless, _⟩ := hhollow
  have hruled : ¬ Ruled request (candidate, local_.headD {}) rest := by
    rintro (hage | ⟨target', htarget', _, hmore⟩)
    · exact absurd (hage.symm.trans hyoung) (by decide)
    · rw [Option.mem_def] at htarget htarget'
      obtain rfl := Option.some.inj (htarget.symm.trans htarget')
      exact absurd hless (Nat.not_lt.mpr hmore)
  rw [walk_cons hneed, choose_cons, ruling_of_not_ruled hgoing hruled hknown]
  rw [ruling_of_not_ruled hgoing hruled hknown] at h
  dsimp only at hgoing ⊢
  split
  next stop need hverdict =>
    intro heq
    rw [hverdict] at h
    obtain ⟨_, _, hstop, hwhy⟩ := Candidates.mk.inj heq
    exact h (by rw [hstop, hwhy])
  next =>
    rw [if_neg (by rw [hgoing]; decide)]
    intro heq
    have hcount := @walk_count_le request sized more local_.tail
      (excess - min excess (local_.headD {}).bytes) (selected.add (local_.headD {}).bytes)
    rw [heq] at hcount
    exact absurd hcount (Nat.not_succ_le_self _)

/-- **The walk selects what the rules select if and only if it meets no hollow segment.** The induction is
    on the segments that are left; the excess is always what they hold over the target. -/
theorem walk_eq_choose_iff
    (hsized : sized = request.target.any fun target => decide (target ≤ total)) :
    ∀ {segments : List Segment} {local_ : List Facts} {excess : Nat} {selected : Candidates},
      (∀ row ∈ rowsOf segments local_, row.2.going = true → row.2.bytes = 0)
      → (∀ target ∈ request.target, sized = true → excess = heldBy (rowsOf segments local_) - target)
      → heldBy (rowsOf segments local_) ≤ total → selected.bytes + heldBy (rowsOf segments local_) ≤ u64Max
      → selected.need = .none
      → (walk request sized segments local_ excess selected = choose request (rowsOf segments local_) selected
        ↔ Solid request total (rowsOf segments local_)) := by
  intro segments
  induction segments with
  | nil =>
    intro local_ excess selected _ _ _ _ _
    refine iff_of_true rfl ?_
    intro before row rest hsplit
    exact absurd (congrArg List.length hsplit) (by simp [rowsOf])
  | cons candidate more ih =>
    intro local_ excess selected hgoing hexcess hle hroom hneed
    have hrows : rowsOf (candidate :: more) local_
        = (candidate, local_.headD {}) :: rowsOf more local_.tail := rfl
    rw [hrows] at hgoing hexcess hle hroom ⊢
    have hheld := @heldBy_cons (candidate, local_.headD {}) (rowsOf more local_.tail)
    have hiff := verdict_eq_iff (overTarget_iff hsized hexcess hle)
    rw [solid_cons]
    by_cases hhollow : Hollow request total (candidate, local_.headD {}) (rowsOf more local_.tail)
    · refine iff_of_false ?_ fun h => h.1 hhollow
      exact walk_hollow hneed hhollow fun h => hiff.mp h hhollow
    · rw [walk_cons hneed, choose_cons, hiff.mpr hhollow]
      dsimp only at hheld ⊢
      cases hruling : ruling request (candidate, local_.headD {}) (rowsOf more local_.tail) with
      | some why =>
        refine iff_of_true rfl ⟨hhollow, fun hgoes => ?_⟩
        unfold ruling at hruling
        rw [if_pos hgoes] at hruling
        cases hruling
      | none =>
        have hgoes : Goes request (candidate, local_.headD {}) (rowsOf more local_.tail) := by
          unfold ruling at hruling
          split at hruling
          next hgoes => exact hgoes
          next => cases hruling
        have hgoing' : ∀ row ∈ rowsOf more local_.tail, row.2.going = true → row.2.bytes = 0 :=
          fun row hrow => hgoing row (List.mem_cons_of_mem _ hrow)
        have hrest : Solid request total (rowsOf more local_.tail)
            ↔ ¬ Hollow request total (candidate, local_.headD {}) (rowsOf more local_.tail)
              ∧ (Goes request (candidate, local_.headD {}) (rowsOf more local_.tail)
                → Solid request total (rowsOf more local_.tail)) :=
          ⟨fun h => ⟨hhollow, fun _ => h⟩, fun h => h.2 hgoes⟩
        rw [← hrest]
        dsimp only
        split
        next hgone =>
          -- one that is going already holds nothing
          have hzero : (local_.headD {}).bytes = 0 :=
            hgoing (candidate, local_.headD {}) (List.mem_cons_self ..) hgone
          rw [hzero, Nat.add_zero]
          refine ih hgoing' ?_ (by omega) (by dsimp only; omega) hneed
          intro target htarget htrue
          rw [hexcess target htarget htrue, hheld, hzero, Nat.zero_add]
        next =>
          have hadd : selected.add (local_.headD {}).bytes = { selected with
              count := selected.count + 1, bytes := selected.bytes + (local_.headD {}).bytes } := by
            unfold Candidates.add
            rw [Nat.min_eq_right (by omega)]
          rw [hadd]
          refine ih hgoing' ?_ (by omega) (by dsimp only; omega) hneed
          intro target htarget htrue
          rw [hexcess target htarget htrue, hheld]
          exact excess_after

/-- What the known segments hold, while a counter holds it. -/
theorem heldSaturated_eq (segments : List Segment) (local_ : List Facts)
    (h : heldBy (rowsOf segments local_) ≤ u64Max) :
    heldSaturated (local_.take segments.length) = heldBy (rowsOf segments local_) := by
  have hfold : ∀ (segments : List Segment) (local_ : List Facts) (held : Nat),
      held + heldBy (rowsOf segments local_) ≤ u64Max
      → (local_.take segments.length).foldl
          (fun held f => if u64Max - held < f.bytes then u64Max else held + f.bytes) held
        = held + heldBy (rowsOf segments local_) := by
    intro segments
    induction segments with
    | nil => exact fun _ _ _ => rfl
    | cons segment more ih =>
      intro local_ held hle
      have hheld := @heldBy_cons (segment, local_.headD {}) (rowsOf more local_.tail)
      rw [show rowsOf (segment :: more) local_
        = (segment, local_.headD {}) :: rowsOf more local_.tail from rfl, hheld] at hle ⊢
      cases local_ with
      | nil =>
        rw [List.take_nil, List.foldl_nil]
        have hnone := ih [] held (by simpa using hle)
        rw [List.take_nil, List.foldl_nil] at hnone
        simpa using hnone
      | cons facts local_ =>
        rw [List.length_cons, List.take_succ_cons, List.foldl_cons]
        dsimp only [List.headD_cons, List.tail_cons] at hle ⊢
        rw [if_neg (by omega), ih local_ _ (by omega), Nat.add_assoc]
  have hzero := hfold segments local_ 0 (by omega)
  rwa [Nat.zero_add] at hzero

end Walk

/-- **Retention selects by its rules exactly when it meets no hollow segment.** For all segments and facts,
    those going already holding nothing and all together less than a counter holds: the walk selects the
    segments before the first that does not go by the rules, the bound and the shard, with what they hold and
    the reason that one stays, if and only if none it comes to has no bytes, is known and not old enough, and
    stands where age has taken the range from its target or more to below it. -/
theorem selectRetention_iff (request : Request) (local_ : List Facts)
    (hgoing : ∀ row ∈ rowsOf request.segments local_, row.2.going = true → row.2.bytes = 0)
    (htotal : heldBy (rowsOf request.segments local_) < 2 ^ 64) :
    Selects request (rowsOf request.segments local_) (selectRetention request local_)
      ↔ Solid request (heldBy (rowsOf request.segments local_)) (rowsOf request.segments local_) := by
  have hle : heldBy (rowsOf request.segments local_) ≤ u64Max := Nat.le_sub_one_of_lt htotal
  rw [selects_iff]
  unfold selectRetention
  dsimp only
  rw [heldSaturated_eq request.segments local_ hle]
  refine walk_eq_choose_iff rfl hgoing ?_ (Nat.le_refl _) (by rwa [Nat.zero_add]) rfl
  intro target htarget htrue
  rw [if_pos htrue, Option.mem_def.mp htarget, Option.getD_some]

/-- Two segments that size lets go, and one that would take the range below its target. -/
theorem selectRetention_iff_three :
    Selects ⟨[⟨10, none⟩, ⟨20, none⟩, ⟨30, none⟩], none, some 150, 100⟩
      (rowsOf [⟨10, none⟩, ⟨20, none⟩, ⟨30, none⟩] [⟨100, .none, false⟩, ⟨0, .none, true⟩, ⟨200, .none, false⟩])
      ⟨2, 100, .kept, .none⟩ := by
  have hiff := selectRetention_iff ⟨[⟨10, none⟩, ⟨20, none⟩, ⟨30, none⟩], none, some 150, 100⟩
    [⟨100, .none, false⟩, ⟨0, .none, true⟩, ⟨200, .none, false⟩] (by decide) (by decide)
  refine hiff.mpr ?_
  have hfull : ∀ row ∈ rowsOf [⟨10, none⟩, ⟨20, none⟩, ⟨30, none⟩]
      [⟨100, .none, false⟩, ⟨0, .none, true⟩, ⟨200, .none, false⟩],
      row.2.going = false → row.2.bytes ≠ 0 := by decide
  rintro before row rest hsplit _ ⟨hstays, _, _, hzero, _⟩
  refine hfull row ?_ hstays hzero
  rw [hsplit]
  exact List.mem_append_right _ (List.mem_cons_self ..)

/-- An old segment of ten bytes and a young one of none, under a target of five: age takes the first, the
    range then holds nothing, and the walk takes the second by size. -/
theorem selectRetention_hollow :
    let request : Request := ⟨[⟨10, some 1⟩, ⟨20, some 9⟩], some 5, some 5, 100⟩
    let local_ : List Facts := [⟨10, .none, false⟩, ⟨0, .none, false⟩]
    selectRetention request local_ = ⟨2, 10, .exhausted, .none⟩
      ∧ ¬ Selects request (rowsOf request.segments local_) (selectRetention request local_) := by
  refine ⟨by decide, ?_⟩
  rw [selects_iff]
  decide

end KwaqueStorage.Retention
