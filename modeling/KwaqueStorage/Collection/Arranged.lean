import KwaqueStorage.Collection.Merge

/-!
# The one arrangement

What a call that nothing stops comes to. The runs are sorted and hold the entries between them
(`buildRuns_spec`); the heap holds their fronts (`pushFronts_spec`); and the merge either empties the runs
into a strict output, or meets an entry equivalent to the last one (`merge_spec`). There is a strict
arrangement exactly when no two entries are equivalent, and there is only one, so nothing of the way it was
found can be seen in it: not the order of the source, not the length of the runs, not the library.
-/

namespace KwaqueStorage.Collection

open Lib

variable {α κ : Type} {task : Task α κ} {source : List α} {owned : Owned α} {tails : List (Tail α)}

/-! ## Sorted runs -/

/-- Nothing refuses. -/
def Task.Granted (task : Task α κ) : Prop := ∀ gate, task.environment gate = none

theorem fillRun_granted (hgranted : task.Granted) (run : Nat) : ∀ (left index : Nat) (input entries : List α),
    task.fillRun run left index input entries =
      (input.drop left, entries ++ input.take left, none)
  | 0, _, input, entries => by
    rw [List.take_zero, List.append_nil]
    rfl
  | left + 1, index, input, entries => by
    unfold Task.fillRun
    rw [hgranted]
    cases input with
    | nil => rw [List.take_nil, List.append_nil]; rfl
    | cons entry input =>
      show task.fillRun run left (index + 1) input (entries ++ [entry]) = _
      rw [fillRun_granted hgranted, List.append_assoc]
      rfl

/-- Where the runs are being made: whole, sorted, none of them empty, and nothing moved on yet. -/
structure Building (task : Task α κ) (source : List α) (owned : Owned α) (tails : List (Tail α)) :
    Prop where
  runs : owned.runs = tails.map Tail.cells
  whole : ∀ tail ∈ tails, tail.moved = 0 ∧ tail.rest ≠ [] ∧ task.order.Sorted tail.rest
  heap : owned.heap = []
  output : owned.output = []
  total : owned.entries.Perm source

theorem buildRuns_spec (hgranted : task.Granted) {runSize : Nat} (hsize : 0 < runSize) :
    ∀ (turns : Nat) {owned : Owned α} {tails : List (Tail α)}, Building task source owned tails →
      owned.input.length ≤ turns →
      ∃ done tails', task.buildRuns runSize turns owned = (done, none) ∧
        Building task source done tails' ∧ done.input = []
  | 0, owned, tails, h, hturns =>
    ⟨owned, tails, rfl, h, List.eq_nil_of_length_eq_zero (Nat.le_zero.mp hturns)⟩
  | turns + 1, owned, tails, h, hturns => by
    by_cases hempty : owned.input = []
    · refine ⟨owned, tails, ?_, h, hempty⟩
      unfold Task.buildRuns
      rw [if_pos hempty]
    have hpos : 0 < owned.input.length := List.length_pos_of_ne_nil hempty
    have hcut := fillRun_granted hgranted owned.runs.length (min runSize owned.input.length) 0 owned.input []
    have hsorted := task.library.sort_sorted task.order ([] ++ owned.input.take (min runSize owned.input.length))
    have hperm := task.library.sort_perm task.order ([] ++ owned.input.take (min runSize owned.input.length))
    generalize hentries : task.library.sort task.order
      ([] ++ owned.input.take (min runSize owned.input.length)) = entries at hsorted hperm
    have hnext : Building task source (owned.withRun (owned.input.drop (min runSize owned.input.length)) entries)
        (tails ++ [⟨0, entries⟩]) := by
      refine ⟨?_, ?_, h.heap, h.output, ?_⟩
      · show owned.runs ++ [entries.map some] = _
        rw [h.runs, List.map_append]
        rfl
      · intro tail htail
        rcases List.mem_append.mp htail with htail | htail
        · exact h.whole tail htail
        · rw [List.mem_singleton.mp htail]
          refine ⟨rfl, ?_, hsorted⟩
          intro hnil
          have hlen := hperm.length_eq
          rw [show entries = [] from hnil, List.nil_append, List.length_take, List.length_nil] at hlen
          omega
      · refine (entries_withRun ?_).trans h.total
        refine (hperm.append_right _).trans ?_
        rw [List.nil_append, List.take_append_drop]
    have hless : (owned.withRun (owned.input.drop (min runSize owned.input.length)) entries).input.length ≤
        turns := by
      show (owned.input.drop (min runSize owned.input.length)).length ≤ turns
      rw [List.length_drop]
      omega
    obtain ⟨done, tails', hdone, hbuilding, hinput⟩ := buildRuns_spec hgranted hsize turns hnext hless
    refine ⟨done, tails', ?_, hbuilding, hinput⟩
    unfold Task.buildRuns
    rw [if_neg hempty]
    simp only [hgranted _, hcut, hentries]
    exact hdone

/-! ## The heap of the fronts -/

/-- The heap holds the fronts. -/
structure Heaped (task : Task α κ) (heap : List (HeapEntry α)) (entries : List (HeapEntry α)) : Prop where
  perm : heap.Perm entries
  heap : task.heapOrder.IsHeap heap

theorem Heaped.push {heap entries : List (HeapEntry α)} (h : Heaped task heap entries)
    (entry : HeapEntry α) :
    Heaped task (task.library.pushHeap task.heapOrder (heap ++ [entry])) (entries ++ [entry]) :=
  ⟨(task.library.pushHeap_perm _ _ _ h.heap).trans (h.perm.append_right _),
    task.library.pushHeap_heap _ _ _ h.heap⟩

/-- Pushing the front of a tail, if it has one. -/
theorem Heaped.pushCell {heap entries : List (HeapEntry α)} (h : Heaped task heap entries)
    (before after : List (Tail α)) (moved : Nat) (rest : List α) :
    Heaped task
      (task.pushCell ((before ++ ⟨moved, rest⟩ :: after).map Tail.cells) before.length moved heap)
      (entries ++ fronts before.length [⟨moved, rest⟩]) := by
  have hcell := @cell_cells _ before after ⟨moved, rest⟩ moved
  rw [Tail.cells_front] at hcell
  unfold Task.pushCell
  rw [hcell]
  cases rest with
  | nil =>
    rw [fronts, fronts, List.append_nil]
    exact h
  | cons value rest => exact h.push _

theorem pushFronts_spec (hgranted : task.Granted) :
    ∀ (after before : List (Tail α)) (owned : Owned α),
      owned.runs = (before ++ after).map Tail.cells → (∀ tail ∈ after, tail.moved = 0) →
      Heaped task owned.heap (fronts 0 before) →
      ∃ heap, task.pushFronts after.length before.length owned = ({ owned with heap := heap }, none) ∧
        Heaped task heap (fronts 0 (before ++ after))
  | [], before, owned, _, _, hheap => by
    rw [List.append_nil]
    exact ⟨owned.heap, rfl, hheap⟩
  | ⟨moved, rest⟩ :: after, before, owned, hruns, hwhole, hheap => by
    have hmoved : moved = 0 := hwhole _ (List.mem_cons_self ..)
    subst hmoved
    have hpushed := hheap.pushCell before after 0 rest
    have hfronts : fronts 0 before ++ fronts before.length [⟨0, rest⟩] = fronts 0 (before ++ [⟨0, rest⟩]) := by
      rw [fronts_append, Nat.zero_add]
    rw [← hruns, hfronts] at hpushed
    have hsplit : before ++ ⟨0, rest⟩ :: after = before ++ [⟨0, rest⟩] ++ after := by
      rw [List.append_assoc, List.singleton_append]
    rw [hsplit] at hruns ⊢
    obtain ⟨heap, hheap', hheaped⟩ := pushFronts_spec hgranted after (before ++ [⟨0, rest⟩])
      { owned with heap := task.pushCell owned.runs before.length 0 owned.heap } hruns
      (fun tail htail => hwhole tail (List.mem_cons_of_mem _ htail)) hpushed
    refine ⟨heap, ?_, hheaped⟩
    rw [List.length_cons, Task.pushFronts, hgranted]
    rw [List.length_append] at hheap'
    exact hheap'

/-! ## The merge -/

/-- **The invariant of the merge.** The heap is the fronts of the tails, what was put out is strict, and
    nothing that is left is below it. -/
structure Merging (task : Task α κ) (source : List α) (owned : Owned α) (tails : List (Tail α)) :
    Prop where
  input : owned.input = []
  runs : owned.runs = tails.map Tail.cells
  sorted : ∀ tail ∈ tails, task.order.Sorted tail.rest
  heap : Heaped task owned.heap (fronts 0 tails)
  strict : task.order.Strict owned.output
  past : ∀ a ∈ owned.output, ∀ tail ∈ tails, ∀ b ∈ tail.rest, task.order.less b a = false
  total : owned.entries.Perm source

/-- What the tails hold. -/
def left (tails : List (Tail α)) : List α := tails.flatMap Tail.rest

theorem reduceOption_cells (tails : List (Tail α)) :
    (tails.map Tail.cells).flatten.reduceOption = left tails := by
  induction tails with
  | nil => rfl
  | cons tail tails ih =>
    rw [List.map_cons, List.flatten_cons, List.reduceOption_append, ih]
    unfold left Tail.cells
    rw [List.reduceOption_append, List.reduceOption_replicate_none, reduceOption_map_some,
      List.nil_append, List.flatMap_cons]

theorem Merging.entries (h : Merging task source owned tails) : (left tails ++ owned.output).Perm source := by
  refine List.Perm.trans (List.Perm.of_eq ?_) h.total
  unfold Owned.entries
  rw [h.input, h.runs, reduceOption_cells, List.nil_append]

/-- An empty heap says that nothing is left. -/
theorem left_of_fronts_nil : ∀ {base : Nat} {tails : List (Tail α)}, fronts base tails = [] → left tails = []
  | _, [], _ => rfl
  | base, ⟨_, []⟩ :: tails, h => @left_of_fronts_nil (base + 1) tails h
  | _, ⟨_, _ :: _⟩ :: _, h => nomatch h

/-- **The front of the heap is a least of all the entries that are left.** -/
theorem Merging.least (h : Merging task source owned tails) {top : HeapEntry α} {heap : List (HeapEntry α)}
    (htop : owned.heap = top :: heap) {tail : Tail α} (htail : tail ∈ tails) {b : α} (hb : b ∈ tail.rest) :
    task.order.less b top.value = false := by
  rcases hrest : tail.rest with _ | ⟨first, rest⟩
  · rw [hrest] at hb
    cases hb
  obtain ⟨entry, hentry, rfl⟩ := front_mem hrest 0 htail
  have hheap := h.heap.heap
  rw [htop] at hheap
  have hmem : entry ∈ top :: heap := htop ▸ h.heap.perm.mem_iff.mpr hentry
  have hfront : task.order.less entry.value top.value = false := hheap.front entry hmem
  have hsorted := h.sorted tail htail
  rw [hrest] at hb hsorted
  rcases List.mem_cons.mp hb with rfl | hb
  · exact hfront
  · exact task.order.not_less_trans ((List.pairwise_cons.mp hsorted).1 b hb) hfront

/-- What a turn does with the front of the heap, which is the front of some tail. -/
structure Popped (task : Task α κ) (owned : Owned α) (tails : List (Tail α)) (top : HeapEntry α)
    (heap : List (HeapEntry α)) (before after : List (Tail α)) (rest : List α) : Prop where
  popped : task.library.popHeap task.heapOrder owned.heap = heap ++ [top]
  tails : tails = before ++ ⟨top.at_, top.value :: rest⟩ :: after
  index : top.listIndex = before.length
  heap : Heaped task heap (fronts 0 before ++ fronts (before.length + 1) after)

theorem Merging.pop (h : Merging task source owned tails) (hne : owned.heap ≠ []) :
    ∃ top heap before after rest, Popped task owned tails top heap before after rest ∧
      ∀ tail ∈ tails, ∀ b ∈ tail.rest, task.order.less b top.value = false := by
  obtain ⟨top, old, htop⟩ := List.exists_cons_of_ne_nil hne
  have hheap := h.heap.heap
  rw [htop] at hheap
  obtain ⟨heap, hpop, hperm, hnew⟩ := task.library.popHeap_eq _ _ _ hheap
  have hmem : top ∈ fronts 0 tails := h.heap.perm.mem_iff.mp (htop ▸ List.mem_cons_self ..)
  obtain ⟨before, rest, after, htails, hindex⟩ := mem_fronts 0 hmem
  refine ⟨top, heap, before, after, rest, ⟨?_, htails, ?_, ?_, hnew⟩, fun tail htail b => h.least htop htail⟩
  · rw [htop, hpop]
  · rw [hindex, Nat.zero_add]
  · have hfronts : fronts 0 tails =
        fronts 0 before ++ top :: fronts (before.length + 1) after := by
      rw [Nat.zero_add] at hindex
      rw [htails, fronts_append, fronts, Nat.zero_add, ← hindex]
    have hall : (top :: old).Perm (fronts 0 before ++ top :: fronts (before.length + 1) after) := by
      rw [← hfronts, ← htop]
      exact h.heap.perm
    exact hperm.trans (List.Perm.cons_inv (hall.trans List.perm_middle))

/-- A turn that finds its entry past the output moves it there. -/
theorem Merging.move (h : Merging task source owned tails) {top : HeapEntry α} {heap : List (HeapEntry α)}
    {before after : List (Tail α)} {rest : List α} (hp : Popped task owned tails top heap before after rest)
    (hleast : ∀ tail ∈ tails, ∀ b ∈ tail.rest, task.order.less b top.value = false)
    (hpast : ∀ last ∈ owned.output.getLast?, task.order.less last top.value = true) :
    let runs := Task.clear owned.runs top.listIndex top.at_
    Merging task source
      ⟨owned.input, runs, task.pushCell runs top.listIndex (top.at_ + 1) heap,
        owned.output ++ (Task.cell owned.runs top.listIndex top.at_).toList⟩
      (before ++ ⟨top.at_ + 1, rest⟩ :: after) := by
  have hcell : Task.cell owned.runs top.listIndex top.at_ = some top.value := by
    rw [h.runs, hp.tails, hp.index, cell_cells, Tail.cells_front]
    rfl
  have hclear : Task.clear owned.runs top.listIndex top.at_ =
      (before ++ ⟨top.at_ + 1, rest⟩ :: after).map Tail.cells := by
    rw [h.runs, hp.tails, hp.index, clear_cells]
  -- a tail of the new list is one of the old list, or what is left of the one that was cut
  have hsub : ∀ tail ∈ before ++ ⟨top.at_ + 1, rest⟩ :: after,
      ∃ old ∈ tails, tail.rest.Sublist old.rest := by
    intro tail htail
    rw [hp.tails]
    rcases List.mem_append.mp htail with htail | htail
    · exact ⟨tail, List.mem_append_left _ htail, List.Sublist.refl _⟩
    rcases List.mem_cons.mp htail with rfl | htail
    · exact ⟨_, List.mem_append_right _ (List.mem_cons_self ..), List.sublist_cons_self _ _⟩
    · exact ⟨tail, List.mem_append_right _ (List.mem_cons_of_mem _ htail), List.Sublist.refl _⟩
  have hmoved := clear_perm owned.runs top.listIndex top.at_
  have hperm : Task.pushCell task (Task.clear owned.runs top.listIndex top.at_) top.listIndex (top.at_ + 1) heap =
      Task.pushCell task ((before ++ ⟨top.at_ + 1, rest⟩ :: after).map Tail.cells) before.length
        (top.at_ + 1) heap := by
    rw [hclear, hp.index]
  rw [hcell] at hmoved ⊢
  refine ⟨h.input, hclear, ?_, ?_, h.strict.concat hpast, ?_, ?_⟩
  · intro tail htail
    obtain ⟨old, hold, hsublist⟩ := hsub tail htail
    exact List.Pairwise.sublist hsublist (h.sorted old hold)
  · show Heaped task (Task.pushCell task (Task.clear owned.runs top.listIndex top.at_) top.listIndex
      (top.at_ + 1) heap) _
    rw [hperm]
    have hpushed := hp.heap.pushCell before after (top.at_ + 1) rest
    refine ⟨hpushed.perm.trans ?_, hpushed.heap⟩
    have hcons : (⟨top.at_ + 1, rest⟩ :: after : List (Tail α)) = [⟨top.at_ + 1, rest⟩] ++ after := rfl
    rw [fronts_append, hcons, fronts_append, Nat.zero_add, List.append_assoc]
    exact List.perm_append_comm.append_left _
  · intro a ha tail htail b hb
    obtain ⟨old, hold, hsublist⟩ := hsub tail htail
    rcases List.mem_append.mp ha with ha | ha
    · exact h.past a ha old hold b (hsublist.subset hb)
    · rw [List.mem_singleton.mp ha]
      exact hleast old hold b (hsublist.subset hb)
  · refine List.Perm.trans ?_ h.total
    unfold Owned.entries
    rw [List.append_assoc, List.append_assoc]
    refine List.Perm.append_left _ ?_
    refine List.perm_append_comm.trans ?_
    rw [List.append_assoc]
    exact (hmoved.append_left _).trans List.perm_append_comm

/-- An entry that is not past the output is equivalent to its last entry. -/
theorem Merging.not_distinct (h : Merging task source owned tails) {top : HeapEntry α}
    {heap : List (HeapEntry α)} {before after : List (Tail α)} {rest : List α}
    (hp : Popped task owned tails top heap before after rest) {last : α} (hlast : last ∈ owned.output)
    (hless : task.order.less last top.value = false) : ¬ task.order.Distinct source := by
  have hmem : (⟨top.at_, top.value :: rest⟩ : Tail α) ∈ tails := by
    rw [hp.tails]
    exact List.mem_append_right _ (List.mem_cons_self ..)
  have hback : task.order.less top.value last = false :=
    h.past last hlast _ hmem top.value (List.mem_cons_self ..)
  intro hdistinct
  have hleft : top.value ∈ left tails := List.mem_flatMap.mpr ⟨_, hmem, List.mem_cons_self ..⟩
  exact WeakOrder.not_distinct_of_mem hleft hlast hback hless (hdistinct.perm h.entries.symm)

/-- Nothing is left: the output is everything. -/
theorem Merging.finished (h : Merging task source owned tails) (hleft : left tails = []) :
    task.order.Strict owned.output ∧ owned.output.Perm source ∧ owned.leftovers = [] := by
  have hentries := h.entries
  rw [hleft, List.nil_append] at hentries
  refine ⟨h.strict, hentries, ?_⟩
  have hlen := (owned.leftovers_perm.trans (h.total.trans hentries.symm)).length_eq
  rw [List.length_append] at hlen
  exact List.eq_nil_of_length_eq_zero (by omega)

/-- **The merge ends**: with everything in a strict output, or at two equivalent entries. -/
theorem merge_spec (hgranted : task.Granted) : ∀ (turns : Nat) {owned : Owned α} {tails : List (Tail α)},
    Merging task source owned tails → (left tails).length ≤ turns →
    ∃ done, (task.merge turns owned = (done, none) ∧ task.order.Strict done.output ∧
        done.output.Perm source ∧ done.leftovers = []) ∨
      (task.merge turns owned = (done, some (.refused .malformedData)) ∧ ¬ task.order.Distinct source)
  | 0, owned, tails, h, hturns =>
    ⟨owned, .inl ⟨rfl, h.finished (List.eq_nil_of_length_eq_zero (Nat.le_zero.mp hturns))⟩⟩
  | turns + 1, owned, tails, h, hturns => by
    by_cases hempty : owned.heap = []
    · have hperm := h.heap.perm
      rw [hempty] at hperm
      refine ⟨owned, .inl ⟨?_, h.finished (left_of_fronts_nil (List.nil_perm.mp hperm))⟩⟩
      unfold Task.merge
      rw [if_pos hempty]
    obtain ⟨top, heap, before, after, rest, hp, hleast⟩ := h.pop hempty
    have hturn : task.merge (turns + 1) owned =
        if (owned.output.getLast?.all fun last => task.order.less last top.value) = false then
          ({ owned with heap := heap }, some (.refused .malformedData))
        else
          let runs := Task.clear owned.runs top.listIndex top.at_
          task.merge turns
            ⟨owned.input, runs, task.pushCell runs top.listIndex (top.at_ + 1) heap,
              owned.output ++ (Task.cell owned.runs top.listIndex top.at_).toList⟩ := by
      rw [Task.merge, if_neg hempty]
      simp only [hgranted _, hp.popped, List.getLast?_concat, List.dropLast_concat]
    rw [hturn]
    by_cases hcheck : (owned.output.getLast?.all fun last => task.order.less last top.value) = false
    · rw [if_pos hcheck]
      rcases hlast : owned.output.getLast? with _ | last
      · rw [hlast] at hcheck
        cases hcheck
      · rw [hlast] at hcheck
        exact ⟨_, .inr ⟨rfl, h.not_distinct hp (List.mem_of_getLast? hlast) hcheck⟩⟩
    · rw [if_neg hcheck]
      have hpast : ∀ last ∈ owned.output.getLast?, task.order.less last top.value = true := by
        intro last hlast
        rw [Option.mem_def.mp hlast] at hcheck
        exact Bool.of_not_eq_false hcheck
      refine merge_spec hgranted turns (h.move hp hleast hpast) ?_
      rw [hp.tails] at hturns
      unfold left at hturns ⊢
      simp only [List.flatMap_append, List.flatMap_cons, List.length_append, List.length_cons] at hturns ⊢
      omega

/-! ## The whole call -/

theorem probe_pos {charge : Nat → Nat} : ∀ {size runSize : Nat},
    task.probe charge size = .ok runSize → 0 < runSize
  | 0, _, h => nomatch h
  | size + 1, runSize, h => by
    unfold Task.probe at h
    obtain ⟨_, _, h⟩ := bind_eq_ok.mp h
    obtain ⟨_, _, h⟩ := bind_eq_ok.mp h
    split at h
    next =>
      cases h
      omega
    next => exact probe_pos h

/-- The runs that are planned for hold something. -/
theorem plan_pos {charge : Nat → Nat} {count runSize : Nat} (h : task.plan charge count = .ok runSize) :
    count = 0 ∨ 0 < runSize := by
  by_cases hcount : count = 0
  · exact .inl hcount
  refine .inr ?_
  unfold Task.plan at h
  rw [if_neg hcount] at h
  obtain ⟨_, _, h⟩ := bind_eq_ok.mp h
  obtain ⟨_, _, h⟩ := bind_eq_ok.mp h
  obtain ⟨size, hsize, h⟩ := bind_eq_ok.mp h
  obtain ⟨_, _, h⟩ := bind_eq_ok.mp h
  obtain ⟨_, _, h⟩ := bind_eq_ok.mp h
  obtain ⟨_, _, h⟩ := bind_eq_ok.mp h
  cases h
  exact probe_pos hsize

/-- **Memory admits the call**: the budget and the quantum of work pass every check that is made before an
    entry moves, and nothing is refused or thrown on the way. -/
structure Admits (task : Task α κ) (freeChunks : Nat) (source : List α) : Prop where
  granted : task.Granted
  whole : freeChunks = 0
  quantum : source = [] ∨ 2 * task.sizes.entry ≤ task.byteQuantum ∧ 2 ≤ task.itemQuantum
  planned : ∃ charge runSize, task.memory.charge = some charge ∧
    task.plan charge source.length = .ok runSize

/-- The runs of a whole source. -/
theorem buildRuns_source (hgranted : task.Granted) {runSize : Nat} (hsize : source.length = 0 ∨ 0 < runSize) :
    ∃ done tails, task.buildRuns runSize source.length ⟨source, [], [], []⟩ = (done, none) ∧
      Building task source done tails ∧ done.input = [] := by
  have hstart : Building task source ⟨source, [], [], []⟩ [] := by
    refine ⟨rfl, fun tail htail => (nomatch htail), rfl, rfl, ?_⟩
    unfold Owned.entries
    simp
  rcases hsize with hsize | hsize
  · rw [hsize]
    exact ⟨_, [], rfl, hstart, List.eq_nil_of_length_eq_zero hsize⟩
  · exact buildRuns_spec hgranted hsize source.length hstart (Nat.le_refl _)

theorem body_spec (hgranted : task.Granted) {charge : Nat → Nat} {runSize : Nat}
    (hplan : task.plan charge source.length = .ok runSize) :
    ∃ done, (task.body charge source = (done, none) ∧ task.order.Strict done.output ∧
        done.output.Perm source ∧ done.leftovers = []) ∨
      (task.body charge source = (done, some (.refused .malformedData)) ∧ ¬ task.order.Distinct source) := by
  obtain ⟨built, tails, hbuilt, hbuilding, hinput⟩ := buildRuns_source hgranted (plan_pos hplan)
  have hnothing : Heaped task built.heap (fronts 0 []) := by
    rw [hbuilding.heap]
    exact ⟨List.Perm.refl _, WeakOrder.IsHeap.nil⟩
  obtain ⟨heap, hpushed, hheaped⟩ := pushFronts_spec hgranted tails [] built hbuilding.runs
    (fun tail htail => (hbuilding.whole tail htail).1) hnothing
  have hmerging : Merging task source { built with heap := heap } tails := by
    refine ⟨hinput, hbuilding.runs, fun tail htail => (hbuilding.whole tail htail).2.2, hheaped, ?_, ?_,
      hbuilding.total⟩
    · show task.order.Strict built.output
      rw [hbuilding.output]
      exact List.Pairwise.nil
    · intro a ha
      rw [show built.output = [] from hbuilding.output] at ha
      cases ha
  have hlen : (left tails).length ≤ source.length := by
    have := hmerging.entries.length_eq
    rw [List.length_append] at this
    omega
  have hbody : task.body charge source = task.merge source.length { built with heap := heap } := by
    have hruns : tails.length = built.runs.length := by
      rw [hbuilding.runs, List.length_map]
    rw [hruns] at hpushed
    unfold Task.body Phase.next
    rw [hplan]
    simp only [hbuilt]
    rw [show task.pushFronts built.runs.length 0 built = _ from hpushed]
  rw [hbody]
  exact merge_spec hgranted source.length hmerging hlen

/-- What a call owes for its entries: those it returns are all of them, and of a call that fails every entry
    stayed where it was or was drained. -/
def Outcome.Accounts (outcome : Outcome α κ) (source : List α) : Prop :=
  match outcome.result with
  | .ok output => (output ++ outcome.drained).Perm source ∧ outcome.kept = []
  | .error _ => outcome.kept = source ∧ outcome.drained = [] ∨
      outcome.kept = [] ∧ outcome.drained.Perm source

theorem canonicalizeUnordered_accounts (task : Task α κ) (freeChunks : Nat) (source : List α) :
    (canonicalizeUnordered task freeChunks source).Accounts source := by
  unfold canonicalizeUnordered
  split
  next => exact .inl ⟨rfl, rfl⟩
  next charge _ =>
    have hdrained := (task.body charge source).1.leftovers_perm.trans (entries_body task charge source)
    split
    next => exact .inl ⟨rfl, rfl⟩
    next =>
      split
      next => exact .inl ⟨rfl, rfl⟩
      next =>
        dsimp only
        split
        next => exact .inr ⟨rfl, hdrained⟩
        next => exact ⟨List.perm_append_comm.trans hdrained, rfl⟩

/-- What an admitted call answers. -/
theorem canonicalizeUnordered_admitted {freeChunks : Nat} (h : Admits task freeChunks source) :
    (∃ output, (canonicalizeUnordered task freeChunks source).result = .ok output ∧
      (canonicalizeUnordered task freeChunks source).drained = [] ∧
      task.order.Strict output ∧ output.Perm source) ∨
    ((canonicalizeUnordered task freeChunks source).result =
      .error (.error (task.context.error .malformedData)) ∧ ¬ task.order.Distinct source) := by
  obtain ⟨hgranted, rfl, hquantum, charge, runSize, hcharge, hplan⟩ := h
  have hfits : ¬ (source ≠ [] ∧ (task.byteQuantum < 2 * task.sizes.entry ∨ task.itemQuantum < 2)) := by
    rintro ⟨hne, hless⟩
    rcases hquantum with hnil | ⟨hbytes, hitems⟩
    · exact hne hnil
    · omega
  unfold canonicalizeUnordered
  rw [hcharge]
  simp only [ne_eq, not_true_eq_false, if_false]
  rw [if_neg hfits, hgranted]
  rcases body_spec hgranted hplan with ⟨done, ⟨hbody, hstrict, hperm, hleft⟩ | ⟨hbody, hsame⟩⟩
  · rw [hbody]
    exact .inl ⟨done.output, rfl, hleft, hstrict, hperm⟩
  · rw [hbody]
    exact .inr ⟨rfl, hsame⟩

/-- **Canonicalization.** Every call accounts for every entry once. A call that memory admits returns the
    strict arrangement of its entries when no two are equivalent, with nothing drained, and says
    `malformed_data` when two are. Any other admitted call on the same entries in any order answers the same,
    whatever it is charged and however long its runs are. -/
theorem canonicalizeUnordered_correct (task : Task α κ) (freeChunks : Nat) (source : List α) :
    (canonicalizeUnordered task freeChunks source).Accounts source ∧
    (Admits task freeChunks source →
      (task.order.Distinct source →
        ∃ output, (canonicalizeUnordered task freeChunks source).result = .ok output ∧
          (canonicalizeUnordered task freeChunks source).drained = [] ∧
          task.order.Strict output ∧ output.Perm source) ∧
      (¬ task.order.Distinct source →
        (canonicalizeUnordered task freeChunks source).result =
          .error (.error (task.context.error .malformedData))) ∧
      ∀ (task' : Task α κ) (freeChunks' : Nat) (source' : List α),
        task'.order = task.order → task'.context = task.context → source'.Perm source →
        Admits task' freeChunks' source' →
        (canonicalizeUnordered task' freeChunks' source').result =
          (canonicalizeUnordered task freeChunks source).result) := by
  refine ⟨canonicalizeUnordered_accounts task freeChunks source, ?_⟩
  intro hadmits
  have hanswer := canonicalizeUnordered_admitted hadmits
  refine ⟨?_, ?_, ?_⟩
  · intro hdistinct
    rcases hanswer with hdone | ⟨_, hsame⟩
    · exact hdone
    · exact absurd hdistinct hsame
  · intro hsame
    rcases hanswer with ⟨output, _, _, hstrict, hperm⟩ | ⟨hresult, _⟩
    · exact absurd (hstrict.distinct.perm hperm) hsame
    · exact hresult
  · intro task' freeChunks' source' horder hcontext hperm' hadmits'
    rcases hanswer with ⟨output, hresult, _, hstrict, hperm⟩ | ⟨hresult, hsame⟩
    · rcases canonicalizeUnordered_admitted hadmits' with ⟨output', hresult', _, hstrict', hsource'⟩ | ⟨_, hsame'⟩
      · rw [horder] at hstrict'
        rw [hresult, hresult', hstrict'.unique hstrict (hsource'.trans (hperm'.trans hperm.symm))]
      · rw [horder] at hsame'
        exact absurd (hstrict.distinct.perm (hperm.trans hperm'.symm)) hsame'
    · rcases canonicalizeUnordered_admitted hadmits' with ⟨output', _, _, hstrict', hsource'⟩ | ⟨hresult', _⟩
      · rw [horder] at hstrict'
        exact absurd (hstrict'.distinct.perm (hsource'.trans hperm')) hsame
      · rw [hresult, hresult', hcontext]

/-! ## A call that is admitted -/

/-- Numbers in their order. -/
def natOrder : WeakOrder Nat where
  less a b := decide (a < b)
  irrefl a := decide_eq_false (Nat.lt_irrefl a)
  trans hab hbc := decide_eq_true (Nat.lt_trans (of_decide_eq_true hab) (of_decide_eq_true hbc))
  equivalent_trans := by
    intro a b c hab hba hbc hcb
    have h₁ := of_decide_eq_false hab
    have h₂ := of_decide_eq_false hba
    have h₃ := of_decide_eq_false hbc
    have h₄ := of_decide_eq_false hcb
    exact ⟨decide_eq_false (by omega), decide_eq_false (by omega)⟩

/-- Entries of 24 bytes, an allocator that rounds up to 64, and the largest quantum of work. -/
def exampleTask : Task Nat Unit where
  order := natOrder
  library := .merging
  sizes := { entry := 24, entryAlignment := 8 }
  chunkEntries := 16
  ceilings := {}
  byteQuantum := 65536
  itemQuantum := 256
  memory := ⟨1048576, 67108864, some fun requested => (requested + 63) / 64 * 64⟩
  environment := fun _ => none
  context := ⟨(), 7⟩

theorem canonicalizeUnordered_example :
    Admits exampleTask 0 [3, 1, 2] ∧
      ∃ output, (canonicalizeUnordered exampleTask 0 [3, 1, 2]).result = .ok output ∧
        (canonicalizeUnordered exampleTask 0 [3, 1, 2]).drained = [] ∧
        natOrder.Strict output ∧ output.Perm [3, 1, 2] := by
  have hplanned : exampleTask.plan (fun requested => (requested + 63) / 64 * 64) 3 = .ok 3 := by
    decide +kernel
  have hadmits : Admits exampleTask 0 [3, 1, 2] :=
    ⟨fun _ => rfl, rfl, .inr (by decide), _, _, rfl, hplanned⟩
  have hdistinct : natOrder.Distinct [3, 1, 2] := by
    unfold WeakOrder.Distinct
    decide
  exact ⟨hadmits, ((canonicalizeUnordered_correct exampleTask 0 [3, 1, 2]).2 hadmits).1 hdistinct⟩

end KwaqueStorage.Collection
