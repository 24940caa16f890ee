import KwaqueStorage.Bytes.Views

/-!
# What a builder publishes

A builder gives out its bytes in two ways: it shares a range of what it has while it goes on, and it finishes,
which turns its fragments into a buffer and leaves it closed. A reservation that was never written to leaves
an empty fragment behind; neither way shows it.
-/

namespace KwaqueStorage.Bytes

open Lib

variable {memory : Memory}

/-- The parts of some fragments from an offset into all of them on, empty ones left out. -/
def pick : List (Fragment Window) → (skip remaining : Nat) → List (Fragment Window)
  | [], _, _ => []
  | fragment :: more, skip, remaining =>
    if remaining = 0 then []
    else if skip ≥ fragment.size then pick more (skip - fragment.size) remaining
    else
      let take := min (fragment.size - skip) remaining
      fragment.share skip take :: pick more 0 (remaining - take)

/-- What is picked: sound parts of the fragments, as many bytes as asked for, no more fragments than there are. -/
theorem pick_spec {fragments : List (Fragment Window)} {skip remaining : Nat}
    (hheld : ∀ fragment ∈ fragments, fragment.size ≤ fragment.retainedBytes)
    (hle : skip + remaining ≤ sizes fragments) :
    sizes (pick fragments skip remaining) = remaining
      ∧ (∀ fragment ∈ pick fragments skip remaining, fragment.Sound)
      ∧ (pick fragments skip remaining).length ≤ fragments.length
      ∧ backing (pick fragments skip remaining) ≤ backing fragments
      ∧ PartsOf (pick fragments skip remaining) fragments := by
  induction fragments generalizing skip remaining with
  | nil =>
    have hnone : skip + remaining ≤ 0 := hle
    refine ⟨?_, nofun, Nat.le_refl _, Nat.le_refl _, nofun⟩
    rw [pick]
    change 0 = remaining
    omega
  | cons fragment more ih =>
    obtain ⟨hfirst, hmore⟩ := List.forall_mem_cons.mp hheld
    rw [sizes_cons] at hle
    rw [pick]
    split
    next hzero => exact ⟨hzero.symm, nofun, Nat.zero_le _, Nat.zero_le _, nofun⟩
    next hsome =>
      split
      next hpast =>
        obtain ⟨hsizes, hsound, hlength, hbacking, hparts⟩ := @ih (skip - fragment.size) remaining hmore
          (by omega)
        refine ⟨hsizes, hsound, hlength.trans (Nat.le_succ _), ?_, hparts.more⟩
        rw [backing_cons]
        exact hbacking.trans (Nat.le_add_left _ _)
      next hinside =>
        obtain ⟨hsizes, hsound, hlength, hbacking, hparts⟩ := @ih 0
          (remaining - min (fragment.size - skip) remaining) hmore (by omega)
        have hsize : (fragment.share skip (min (fragment.size - skip) remaining)).size
            = min (fragment.size - skip) remaining := rfl
        refine ⟨?_, ?_, Nat.succ_le_succ hlength, ?_, hparts.cons (Fragment.part (by omega))⟩
        · rw [sizes_cons, hsizes, hsize]
          omega
        · refine List.forall_mem_cons.mpr ⟨⟨by omega, ?_⟩, hsound⟩
          change min (fragment.size - skip) remaining ≤ fragment.retainedBytes
          omega
        · rw [backing_cons, backing_cons]
          exact Nat.add_le_add_left hbacking _

theorem pick_content {fragments : List (Fragment Window)} {skip remaining : Nat}
    (hread : Readable memory.read fragments) :
    (contents memory.read (pick fragments skip remaining)).flatten
      = ((contents memory.read fragments).flatten.drop skip).take remaining := by
  induction fragments generalizing skip remaining with
  | nil =>
    change [] = (List.drop skip []).take remaining
    rw [List.drop_nil, List.take_nil]
  | cons fragment more ih =>
    have hmore : Readable memory.read more := fun other hmem => hread other (List.mem_cons_of_mem _ hmem)
    have hlength := hread fragment (List.mem_cons_self ..)
    rw [pick]
    split
    next hzero =>
      rw [hzero, List.take_zero]
      rfl
    next hsome =>
      rw [contents_cons, List.drop_append, hlength]
      split
      next hpast =>
        have hnone : (memory.read fragment.storage).drop skip = [] := List.drop_eq_nil_of_le (by omega)
        rw [ih hmore, hnone, List.nil_append]
      next hinside =>
        have hpart := memory.read_shares fragment.storage skip (min (fragment.size - skip) remaining)
          (show skip + _ ≤ fragment.size by omega)
        have hnone : skip - fragment.size = 0 := by omega
        have hdropped : ((memory.read fragment.storage).drop skip).length = fragment.size - skip := by
          rw [List.length_drop, hlength]
        rw [contents_cons, ih hmore, hnone, List.drop_zero, List.take_append, hdropped]
        change memory.read (Storage.share fragment.storage skip _) ++ _ = _
        have htaken : ((memory.read fragment.storage).drop skip).take (min (fragment.size - skip) remaining)
            = ((memory.read fragment.storage).drop skip).take remaining := by
          rw [← hdropped, Nat.min_comm, ← List.take_eq_take_min]
        have hleft : remaining - min (fragment.size - skip) remaining = remaining - (fragment.size - skip) := by
          omega
        rw [hpart, htaken, hleft]

/-- The loop of a share picks those parts: neither of its refusals can happen. -/
theorem Builder.shareParts_eq {parts : List (Fragment Window × Nat)} {skip remaining retained : Nat}
    {shared : List (Fragment Window)}
    (hle : skip + remaining ≤ sizes (parts.map fun part => part.1.share 0 part.2))
    (hfew : shared.length + parts.length ≤ maxBufferFragments) :
    Builder.shareParts parts skip remaining shared retained
      = .ok (shared ++ pick (parts.map fun part => part.1.share 0 part.2) skip remaining,
          retained + backing (pick (parts.map fun part => part.1.share 0 part.2) skip remaining)) := by
  induction parts generalizing skip remaining shared retained with
  | nil =>
    have hnone : skip + remaining ≤ 0 := hle
    rw [Builder.shareParts, if_neg (by omega)]
    change _ = Except.ok (shared ++ [], retained + 0)
    rw [List.append_nil, Nat.add_zero]
  | cons part more ih =>
    obtain ⟨fragment, used⟩ := part
    have hsize : (fragment.share 0 used).size = used := rfl
    rw [List.map_cons, sizes_cons, hsize] at hle
    rw [List.length_cons] at hfew
    rw [Builder.shareParts, List.map_cons, pick, hsize]
    split
    next =>
      rw [List.append_nil]
      rfl
    next =>
      split
      next => exact ih (by omega) (by omega)
      next =>
        dsimp only
        rw [if_neg (by omega), ih (by omega) (by rw [List.length_append, List.length_singleton]; omega),
          List.append_assoc, backing_cons, Nat.add_assoc]
        rfl

namespace Builder

variable {b : Builder}

/-- What is used of each fragment is what is presented of it. -/
theorem used_presented : b.used.map (fun part => part.1.share 0 part.2) = b.presented := by
  rcases b.fragments_cases with hnil | ⟨front, tail, hconcat⟩
  · unfold used
    rw [presented_nil hnil, hnil]
    rfl
  · unfold used
    rw [getLast_of_concat hconcat, presented_concat hconcat, hconcat, List.dropLast_concat, List.map_append,
      List.map_map]
    congr 1
    exact (List.map_congr_left fun _ _ => rfl).trans (List.map_id _)

theorem used_length : b.used.length = b.fragments.length := by
  rw [← presented_length, ← used_presented, List.length_map]

theorem Sound.bounded (h : b.Sound memory) : backing b.presented ≤ maxBufferBytes := by
  rw [presented_backing, ← h.retained]
  exact h.backed.trans h.config.bounded

/-- **A share of a builder** shows a range of its bytes in parts of its own fragments. -/
theorem Sound.share (h : b.Sound memory) {offset length : Nat} {shared : Buffer Window}
    (hshared : b.share offset length = .ok shared) :
    Buffer.Viewed memory b.presented shared (((b.content memory).drop offset).take length) := by
  unfold Builder.share at hshared
  split at hshared
  next => cases hshared
  next hopen =>
    split at hshared
    next => cases hshared
    next hrange =>
      split at hshared
      next hzero =>
        cases hshared
        rw [hzero, List.take_zero]
        exact Buffer.Viewed.empty
      next hsome =>
        have hsize := h.size
        have hfew := h.few.trans h.config.few
        have hheld : ∀ fragment ∈ b.presented, fragment.size ≤ fragment.retainedBytes :=
          fun fragment hmem => (h.presented_windows fragment hmem).2
        obtain ⟨hsizes, hsound, hlength, hbacking, hparts⟩ := @pick_spec b.presented offset length hheld
          (by omega)
        rw [shareParts_eq (by rw [used_presented]; omega)
          (by rw [used_length, List.length_nil]; omega), used_presented] at hshared
        cases hshared
        rw [List.nil_append, Nat.zero_add]
        refine ⟨⟨⟨hsizes.symm, rfl, hsound, ?_, hbacking.trans h.bounded⟩, ?_⟩, pick_content h.readable, hparts⟩
        · rw [presented_length] at hlength
          exact hlength.trans hfew
        · intro part hmem
          obtain ⟨whole, hof, hinside⟩ := hparts part hmem
          exact hinside.valid (h.presented_windows whole hof).1

/-! ## Finishing -/

theorem sizes_filter {fragments : List (Fragment Window)} :
    sizes (fragments.filter fun fragment => fragment.size ≠ 0) = sizes fragments := by
  induction fragments with
  | nil => rfl
  | cons fragment more ih =>
    rw [List.filter_cons, sizes_cons]
    split
    next => rw [sizes_cons, ih]
    next hempty =>
      rw [ih]
      simp only [ne_eq, decide_not, Bool.not_eq_eq_eq_not, Bool.not_true, decide_eq_false_iff_not, not_not]
        at hempty
      omega

theorem backing_filter {fragments : List (Fragment Window)} :
    backing (fragments.filter fun fragment => fragment.size ≠ 0)
      + backing (fragments.filter fun fragment => fragment.size = 0) = backing fragments := by
  induction fragments with
  | nil => rfl
  | cons fragment more ih =>
    rw [List.filter_cons, List.filter_cons, backing_cons]
    by_cases hempty : fragment.size = 0
    · rw [if_neg (by simpa using hempty), if_pos (by simpa using hempty), backing_cons]
      omega
    · rw [if_pos (by simpa using hempty), if_neg (by simpa using hempty), backing_cons]
      omega

theorem contents_filter {fragments : List (Fragment Window)} (hread : Readable memory.read fragments) :
    (contents memory.read (fragments.filter fun fragment => fragment.size ≠ 0)).flatten
      = (contents memory.read fragments).flatten := by
  induction fragments with
  | nil => rfl
  | cons fragment more ih =>
    obtain ⟨hfirst, hmore⟩ := List.forall_mem_cons.mp hread
    rw [List.filter_cons, contents_cons]
    by_cases hempty : fragment.size = 0
    · have hnone : memory.read fragment.storage = [] :=
        List.length_eq_zero_iff.mp (hfirst.trans hempty)
      rw [if_neg (by simpa using hempty), hnone, List.nil_append, ih hmore]
    · rw [if_pos (by simpa using hempty), contents_cons, ih hmore]

/-- The builder that a finish leaves. -/
def closed (b : Builder) : Builder :=
  { b with fragments := [], size := 0, retainedBytes := 0, tailUsed := 0, lastAllocation := 0, finished := true }

theorem Sound.closing (h : b.Sound memory) : b.closed.Sound memory where
  config := h.config
  windows := nofun
  tail := nofun
  blank _ := rfl
  retained := rfl
  backed := Nat.zero_le _
  few := Nat.zero_le _
  own := nofun
  closed _ := rfl
  size := rfl
  total := Nat.zero_le _

/-- **Finishing** publishes the builder's bytes with no empty fragment and closes it, unless it is closed. -/
theorem Sound.finish (h : b.Sound memory) :
    b.finish = (.error .closed, b)
    ∨ ∃ published, b.finish = (.ok published, b.closed)
      ∧ Buffer.Viewed memory b.presented published (b.content memory) := by
  unfold Builder.finish
  by_cases hfinished : b.finished = true
  · rw [if_pos hfinished]
    exact .inl rfl
  rw [if_neg hfinished, h.toShaped.sealTail_eq]
  have hsize := h.size
  have hsizes := @sizes_filter b.presented
  have hbacking := @backing_filter b.presented
  have hretained := h.retained
  have hbounded := h.bounded
  rw [← presented_backing] at hretained
  have hlength : (b.presented.filter fun fragment => fragment.size ≠ 0).length ≤ maxBufferFragments := by
    refine (List.length_filter_le _ _).trans ?_
    rw [presented_length]
    exact h.few.trans h.config.few
  have hmem : ∀ {fragment : Fragment Window},
      fragment ∈ b.presented.filter (fun fragment => fragment.size ≠ 0) →
      fragment ∈ b.presented ∧ 0 < fragment.size := by
    intro fragment hfragment
    obtain ⟨hof, hnonempty⟩ := List.mem_filter.mp hfragment
    exact ⟨hof, Nat.pos_of_ne_zero (by simpa using hnonempty)⟩
  unfold dropEmptyFragments
  dsimp only
  rw [if_neg (not_not_intro (hsizes.trans hsize.symm)), if_neg (Nat.not_lt.mpr hlength)]
  refine .inr ⟨_, rfl, ⟨⟨?_, ?_, ?_, hlength, ?_⟩, ?_⟩, contents_filter h.readable, ?_⟩
  · exact hsize.trans hsizes.symm
  · dsimp only
    omega
  · intro fragment hfragment
    obtain ⟨hof, hpos⟩ := hmem hfragment
    exact ⟨hpos, (h.presented_windows fragment hof).2⟩
  · dsimp only
    omega
  · intro fragment hfragment
    exact (h.presented_windows fragment (hmem hfragment).1).1
  · intro fragment hfragment
    exact ⟨fragment, (hmem hfragment).1, Window.Part.refl⟩

end Builder

end KwaqueStorage.Bytes
