import KwaqueStorage.Manifest.Verifier

/-!
# What a finished walk has shown

The entries of an accepted page are joined from where the pages before it ended to where the page's own span
ends, as many as the root's reference says, and from their latest append time on. Along a run of calls these
facts add up: what was handed out is joined from the root's beginning to the verifier's `end_`, and counts
what the references so far count. At `finish` both have reached the root's own.
-/

namespace KwaqueStorage.Manifest

open Codec Layout Lib RetryPages
open Lib.Tiling (Joined joined_append)

/-! ## One page -/

section Page

variable {digests : Digests} {policy : Limits} {root : RangeManifestRoot} {reference : PageRef}
  {previous : Option (Fin (2 ^ 64))} {latest : Int64} {page : RangeManifestPage}

theorem readEntries_sound {end_ next last : Fin (2 ^ 64)} {count : Nat} {rest left : List UInt8}
    {entries : List RangeManifestEntry}
    (h : readEntries end_ count rest next latest = .ok (entries, last, left)) :
    entries.length = count ∧ Joined next last (pieces entries)
      ∧ ∃ later, appendThrough entries latest = some later := by
  induction count generalizing rest next latest entries with
  | zero =>
    cases h
    exact ⟨rfl, rfl, latest, rfl⟩
  | succ count ih =>
    rw [readEntries] at h
    simp only [bind_eq_ok, require_eq_ok, exists_const, expect_eq_ok, Prod.exists, pure_eq_ok] at h
    obtain ⟨_, entry, hentry, mid, hmid, more, last', left', hmore, heq⟩ := h
    cases heq
    obtain ⟨hlength, hjoined, later, hlater⟩ := ih hmore
    refine ⟨by rw [List.length_cons, hlength], ⟨?_, hjoined⟩, later, ?_⟩
    · exact congrArg Fin.val (readEntry_eq_ok hentry).1
    · unfold appendThrough at hlater ⊢
      rw [List.foldlM_cons, hmid]
      exact hlater

/-- What an accepted page adds to a walk. -/
structure PageAdds (reference : PageRef) (previous : Option (Fin (2 ^ 64))) (latest : Int64)
    (page : RangeManifestPage) : Prop where
  counted : page.entries.length = reference.entryCount
  joined : ∀ last ∈ previous, Joined last page.header.logical.end_ (pieces page.entries)
  ordered : ∃ later, appendThrough page.entries latest = some later

theorem readPage_adds {context : ManifestContext} {rootLogical : WordSpan} {alignment : Capacity.Alignment}
    {headerBytes : Nat} {body : List UInt8}
    (h : readPage policy context rootLogical alignment reference previous latest headerBytes body
      = .ok page) : PageAdds reference previous latest page := by
  unfold readPage at h
  simp only [bind_eq_ok, require_eq_ok, exists_const, pageWire_eq_ok, Prod.exists, pure_eq_ok] at h
  obtain ⟨_, _, _, scope, _, ⟨_, _, hprevious⟩, ⟨_, _, hcount⟩, header, hheader, _, _, _, layout, _, _,
    entries, next, rest, hentries, rfl, _, _, rfl⟩ := h
  obtain ⟨hlength, hjoined, hordered⟩ := readEntries_sound hentries
  refine ⟨hlength.trans hcount, ?_, hordered⟩
  intro last hlast
  rw [← hprevious last hlast, (PageHeader.make_eq_ok.mp hheader).2.1]
  exact hjoined

/-- **An accepted page** holds the entries its reference counts, joined from where the last page ended. -/
theorem decodePage_adds {limits : CodecLimits} {boundary : InputBoundary} {ordinal taken : Nat}
    {input : List UInt8}
    (h : decodePage digests limits boundary root ordinal input previous latest = .ok (page, taken)) :
    ∃ reference, root.pages[ordinal]? = some reference ∧ PageAdds reference previous latest page := by
  unfold decodePage at h
  cases hlisted : root.pages[ordinal]? with
  | none =>
    rw [hlisted] at h
    cases h
  | some reference =>
    rw [hlisted] at h
    unfold decodePinned at h
    simp only [bind_eq_ok, require_eq_ok, exists_const, Prod.exists, pure_eq_ok] at h
    obtain ⟨_, _, _, _, _, _, _, value, hread, _, _, heq⟩ := h
    cases heq
    exact ⟨reference, rfl, readPage_adds hread⟩

end Page

/-! ## Decoded roots -/

/-- The entries that references hold. -/
def entriesOf (refs : List PageRef) : Nat := (refs.map PageRef.entryCount).sum

section Root

variable {digests : Digests} {policy : Limits} {root : RangeManifestRoot}

theorem readRefs_counts {alignment : Capacity.Alignment} {total count ordinal first last : Nat}
    {rest left : List UInt8} {refs : List PageRef}
    (h : readRefs alignment policy total count ordinal first rest = .ok (refs, last, left)) :
    last = first + entriesOf refs := by
  induction count generalizing ordinal first rest refs with
  | zero =>
    cases h
    rfl
  | succ count ih =>
    rw [readRefs] at h
    simp only [bind_eq_ok, require_eq_ok, exists_const, Prod.exists, pure_eq_ok] at h
    obtain ⟨_, ref, _, _, _, _, more, last', left', hmore, heq⟩ := h
    cases heq
    rw [ih hmore, entriesOf, entriesOf, List.map_cons, List.sum_cons, Nat.add_assoc]

/-- A root that a decoder returned. There is no other. -/
def Decoded (digests : Digests) (root : RangeManifestRoot) : Prop :=
  ∃ policy boundary expected logical alignment digest input taken,
    decodeRangeManifestRoot digests policy boundary expected logical alignment digest input
      = .ok (root, taken)

/-- **The references of a root** hold as many entries as the root counts. -/
theorem Decoded.counts (h : Decoded digests root) : entriesOf root.pages = root.header.entryCount := by
  obtain ⟨policy, boundary, expected, logical, alignment, digest, input, taken, h⟩ := h
  unfold decodeRangeManifestRoot decodePinned readRoot at h
  simp only [bind_eq_ok, require_eq_ok, exists_const, pageWire_eq_ok, Prod.exists, pure_eq_ok] at h
  obtain ⟨_, _, _, _, ⟨_, _, _, scope, _, _, _, header, hheader, _, _, layout, _, _, refs, first, rest,
    hrefs, hfirst, _, _, rfl⟩, _, _, heq⟩ := h
  cases heq
  have hcounts := readRefs_counts hrefs
  rw [Nat.zero_add, hfirst] at hcounts
  exact hcounts.symm.trans (RootHeader.make_eq_ok.mp hheader).2.2.1.symm

end Root

/-! ## A run of calls -/

namespace Verifier

variable {digests : Digests} {v v' : Verifier} {work : Work} {calls : List Call} {answers : List Answer}
  {answer : Answer}

/-- The entries that calls handed out, in order. -/
def given (answers : List Answer) : List RangeManifestEntry := answers.flatMap Answer.entries

/-- **What a walk has shown so far**: the entries it handed out are joined from the root's beginning to
    where it is, count what the references so far count, and are in order of their append times. -/
structure Walked (v : Verifier) (entries : List RangeManifestEntry) : Prop where
  joined : Joined v.root.header.logical.begin_ v.end_ (pieces entries)
  counted : entries.length = entriesOf (v.root.pages.take v.next)
  ordered : appendThrough entries 0 = some v.latest

theorem Walked.start {root : RangeManifestRoot} {policy : CodecLimits} :
    Walked (start root policy) [] :=
  ⟨rfl, rfl, rfl⟩

variable {entries : List RangeManifestEntry}

theorem Walked.close (h : Walked v entries) :
    Walked v.close entries := ⟨h.joined, h.counted, h.ordered⟩

/-- What `ready` can do. -/
theorem ready_cases :
    (v.state ≠ .open_ ∧ v.ready work = (v, .error .closed))
      ∨ (v.state = .open_ ∧ v.checkReady work = .ok () ∧ v.ready work = (v, .ok ()))
      ∨ (v.state = .open_ ∧ ∃ e, v.checkReady work = .error e ∧ v.ready work = (v.close, .error e)) := by
  unfold ready
  cases hstate : v.state with
  | open_ =>
    cases hcheck : v.checkReady work with
    | ok u => exact .inr (.inl ⟨rfl, rfl, rfl⟩)
    | error e => exact .inr (.inr ⟨rfl, e, rfl, rfl⟩)
  | active => exact .inl ⟨nofun, rfl⟩
  | closed => exact .inl ⟨nofun, rfl⟩

/-- **What a call can do**: fail and leave the verifier shut, hand out one decoded page, or finish. -/
inductive Called (digests : Digests) (v : Verifier) : Verifier → Answer → Prop
  | refused {v' : Verifier} {answer : Answer} : v' = v ∨ v' = v.close → answer.failed = true
      → v'.state ≠ .open_ → Called digests v v' answer
  | handed {work : Work} {boundary : InputBoundary} {input : List UInt8} {page : RangeManifestPage}
      {taken : Nat} : v.state = .open_
      → decodePage digests work.policy boundary v.root v.next input (some v.end_) v.latest
        = .ok (page, taken)
      → Called digests v (v.advance page) (.page (.ok (page, taken)))
  | finished : v.next = v.root.pages.length → v.end_ = v.root.header.logical.end_
      → Called digests v v.close (.verified (.ok ⟨v.root.digest, v.root.header.entryCount⟩))

theorem called_take {boundary : InputBoundary} {input : List UInt8} (hstate : v.state = .open_) :
    Called digests v (v.take digests work boundary input).1
      (.page (v.take digests work boundary input).2) := by
  unfold take
  split
  next => exact .refused (.inr rfl) rfl nofun
  next =>
    split
    next => exact .refused (.inr rfl) rfl nofun
    next =>
      split
      next => exact .refused (.inr rfl) rfl nofun
      next page taken hdecoded =>
        unfold decodeNext at hdecoded
        simp only [bind_eq_ok, pure_eq_ok] at hdecoded
        obtain ⟨_, _, _, hpage, _, _, rfl⟩ := hdecoded
        exact .handed hstate hpage

theorem called_call (c : Call) : Called digests v (v.call digests c).1 (v.call digests c).2 := by
  cases c with
  | next work boundary input =>
    change Called digests v (v.next_ digests work boundary input).1
      (.page (v.next_ digests work boundary input).2)
    unfold next_
    rcases @ready_cases v work with ⟨hstate, h⟩ | ⟨hstate, _, h⟩ | ⟨hstate, e, _, h⟩
    · rw [h]
      exact .refused (.inl rfl) rfl hstate
    · rw [h]
      exact called_take hstate
    · rw [h]
      exact .refused (.inr rfl) rfl (by simp [close])
  | finish work =>
    change Called digests v (v.finish work).1 (.verified (v.finish work).2)
    unfold finish
    rcases @ready_cases v work with ⟨hstate, h⟩ | ⟨hstate, _, h⟩ | ⟨hstate, e, _, h⟩
    · rw [h]
      exact .refused (.inl rfl) rfl hstate
    · rw [h]
      dsimp only
      split
      next hall => exact .finished hall.1 hall.2
      next => exact .refused (.inr rfl) rfl (by simp [close])
    · rw [h]
      exact .refused (.inr rfl) rfl (by simp [close])

/-! ## Along a run -/

theorem Called.root (h : Called digests v v' answer) : v'.root = v.root := by
  cases h with
  | refused hsame _ _ =>
    rcases hsame with rfl | rfl
    · rfl
    · rfl
  | handed _ _ => rfl
  | finished _ _ => rfl

theorem Answer.entries_of_failed (h : answer.failed = true) : answer.entries = [] := by
  unfold Answer.failed at h
  split at h
  next => rfl
  next => rfl
  next => cases h

theorem Answer.entries_verified {result : Except Errc VerifiedPages} :
    (Answer.verified result).entries = [] := rfl

/-- A failed call leaves the verifier shut. -/
theorem Called.shut (h : Called digests v v' answer) (hfailed : answer.failed = true) :
    v'.state ≠ .open_ := by
  cases h with
  | refused _ _ hstate => exact hstate
  | handed _ _ => cases hfailed
  | finished _ _ => cases hfailed

/-- A shut verifier refuses every call and stays shut. -/
theorem call_shut (h : v.state ≠ .open_) (c : Call) :
    (v.call digests c).1.state ≠ .open_ ∧ (v.call digests c).2.failed = true := by
  have hready : ∀ work, v.ready work = (v, .error .closed) := by
    intro work
    rcases @ready_cases v work with ⟨_, hready⟩ | ⟨hopen, _⟩ | ⟨hopen, _⟩
    · exact hready
    · exact absurd hopen h
    · exact absurd hopen h
  cases c with
  | next work boundary input =>
    unfold call next_
    dsimp only
    rw [hready]
    exact ⟨h, rfl⟩
  | finish work =>
    unfold call finish
    dsimp only
    rw [hready]
    exact ⟨h, rfl⟩

/-- **After a failure nothing more is handed out.** -/
theorem run_shut (h : v.state ≠ .open_) : ∀ answer ∈ (v.run digests calls).2, answer.failed = true := by
  induction calls generalizing v with
  | nil => exact fun _ hmem => nomatch hmem
  | cons c rest ih =>
    obtain ⟨hstate, hfailed⟩ := @call_shut digests v h c
    intro answer hmem
    rcases List.mem_cons.mp hmem with rfl | hmem
    · exact hfailed
    · exact ih hstate answer hmem

theorem given_of_failed (h : ∀ answer ∈ answers, answer.failed = true) : given answers = [] :=
  List.flatMap_eq_nil_iff.mpr fun answer hmem => Answer.entries_of_failed (h answer hmem)

/-- **A call keeps what the walk has shown.** -/
theorem Walked.called (hwalked : Walked v entries) (h : Called digests v v' answer)
    : Walked v' (entries ++ answer.entries) := by
  cases h with
  | refused hsame hfailed _ =>
    rw [Answer.entries_of_failed hfailed, List.append_nil]
    rcases hsame with rfl | rfl
    · exact hwalked
    · exact hwalked.close
  | @handed work boundary input page taken _ hpage =>
    obtain ⟨reference, hlisted, hadds⟩ := decodePage_adds hpage
    obtain ⟨later, hlater⟩ := hadds.ordered
    obtain ⟨_, _, rfl⟩ := appendThrough_eq_some.mp hlater
    refine ⟨?_, ?_, ?_⟩
    · change Joined _ _ (pieces (entries ++ page.entries))
      unfold pieces
      rw [List.map_append]
      exact joined_append.mpr ⟨v.end_, hwalked.joined, hadds.joined v.end_ rfl⟩
    · change (entries ++ page.entries).length = entriesOf (v.root.pages.take (v.next + 1))
      rw [List.take_add_one, hlisted, entriesOf, List.map_append, List.sum_append, List.length_append,
        hwalked.counted, hadds.counted]
      rfl
    · change appendThrough (entries ++ page.entries) 0 = some (latestOf page.entries v.latest)
      rw [appendThrough_append, hwalked.ordered]
      exact hlater
  | finished _ _ =>
    rw [Answer.entries_verified, List.append_nil]
    exact hwalked.close

/-- What a finished walk has shown of a root. -/
structure Partitions (root : RangeManifestRoot) (entries : List RangeManifestEntry) : Prop where
  joined : Joined root.header.logical.begin_ root.header.logical.end_ (pieces entries)
  counted : entries.length = entriesOf root.pages
  ordered : AppendSorted entries

theorem Walked.partitions (h : Walked v entries) (hnext : v.next = v.root.pages.length)
    (hend : v.end_ = v.root.header.logical.end_) :
    Partitions v.root entries := by
  refine ⟨hend ▸ h.joined, ?_, (appendThrough_eq_some.mp h.ordered).1⟩
  rw [h.counted, hnext, List.take_length]

/-- **A walk that finishes** has handed out a partition of the root. -/
theorem Walked.run {out : VerifiedPages} (hwalked : Walked v entries)
    (hfinished : .verified (.ok out) ∈ (v.run digests calls).2) :
    Partitions v.root (entries ++ given (v.run digests calls).2)
      ∧ out = ⟨v.root.digest, v.root.header.entryCount⟩ := by
  induction calls generalizing v entries with
  | nil => cases hfinished
  | cons c rest ih =>
    have hcalled := @called_call digests v c
    have hnext := hwalked.called hcalled
    have hroot := hcalled.root
    have hsplit : entries ++ given (v.run digests (c :: rest)).2
        = entries ++ (v.call digests c).2.entries ++ given ((v.call digests c).1.run digests rest).2 := by
      rw [List.append_assoc]
      rfl
    have hmem : .verified (.ok out) = (v.call digests c).2
        ∨ .verified (.ok out) ∈ ((v.call digests c).1.run digests rest).2 := List.mem_cons.mp hfinished
    rw [hsplit]
    rcases hmem with hhead | htail
    · -- the call that finished shuts the verifier, so the rest adds nothing
      rw [← hhead] at hcalled
      generalize (v.call digests c).1 = v₁ at *
      cases hcalled with
      | refused _ hfailed _ => cases hfailed
      | finished hpages hend =>
        have hrest := @run_shut digests v.close rest nofun
        rw [← hhead, given_of_failed hrest, Answer.entries_verified, List.append_nil, List.append_nil]
        exact ⟨hwalked.partitions hpages hend, rfl⟩
    · have := ih hnext htail
      rwa [hroot] at this

end Verifier

end KwaqueStorage.Manifest
