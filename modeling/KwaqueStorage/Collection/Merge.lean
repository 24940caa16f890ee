import KwaqueStorage.Collection.Canonical

/-!
# Where the entries go

First what holds of every call, refused at any point or not: no part of the work makes an entry or loses one
(`entries_body`), so what is not returned was kept or drained.

Then the merge. A run part of the way through is a `Tail`: some empty cells and what is left. The heap holds
the front of every tail that has one, and nothing else. From this a turn of the merge takes the least of all
the entries that are left, and the output stays strict until an entry comes out that is equivalent to the one
before it.
-/

namespace KwaqueStorage.Collection

open Lib

variable {α κ : Type}

/-! ## No entry is made or lost -/

section Keeping

variable (task : Task α κ)

theorem fillRun_keeps (run : Nat) : ∀ (left index : Nat) (input entries : List α),
    (task.fillRun run left index input entries).2.1 ++ (task.fillRun run left index input entries).1 =
      entries ++ input
  | 0, _, _, _ => rfl
  | left + 1, index, input, entries => by
    unfold Task.fillRun
    split
    next => rfl
    next => rfl
    next entry rest _ =>
      rw [fillRun_keeps run left (index + 1) rest (entries ++ [entry]), List.append_assoc]
      rfl

theorem reduceOption_map_some (l : List α) : (l.map some).reduceOption = l := by
  induction l with
  | nil => rfl
  | cons a l ih => rw [List.map_cons, List.reduceOption_cons_of_some, ih]

/-- Entries that move from the input to a run of their own are owned as before. -/
theorem entries_withRun {owned : Owned α} {input run : List α} (h : (run ++ input).Perm owned.input) :
    (owned.withRun input run).entries.Perm owned.entries := by
  unfold Owned.entries Owned.withRun
  refine List.Perm.append_right _ ?_
  rw [List.flatten_concat, List.reduceOption_append, reduceOption_map_some]
  show (input ++ (owned.runs.flatten.reduceOption ++ run)).Perm _
  calc (input ++ (owned.runs.flatten.reduceOption ++ run)).Perm
        (input ++ (run ++ owned.runs.flatten.reduceOption)) := List.perm_append_comm.append_left input
    _ = input ++ run ++ owned.runs.flatten.reduceOption := (List.append_assoc _ _ _).symm
    _ |>.Perm (owned.input ++ owned.runs.flatten.reduceOption) :=
        (List.perm_append_comm.trans h).append_right _

theorem entries_buildRuns (runSize : Nat) : ∀ (turns : Nat) (owned : Owned α),
    (task.buildRuns runSize turns owned).1.entries.Perm owned.entries
  | 0, owned => List.Perm.refl _
  | turns + 1, owned => by
    have hfill := fillRun_keeps task owned.runs.length (min runSize owned.input.length) 0 owned.input []
    unfold Task.buildRuns
    split
    next => exact List.Perm.refl _
    next =>
      dsimp only
      split
      next => exact List.Perm.refl _
      next =>
        split
        next input entries stop heq =>
          rw [heq] at hfill
          exact entries_withRun (List.Perm.of_eq hfill)
        next input entries heq =>
          rw [heq] at hfill
          have hsort : (task.library.sort task.order entries ++ input).Perm owned.input :=
            ((task.library.sort_perm task.order entries).append_right input).trans (List.Perm.of_eq hfill)
          split
          next => exact entries_withRun (List.Perm.of_eq hfill)
          next =>
            split
            next => exact entries_withRun hsort
            next => exact (entries_buildRuns runSize turns _).trans (entries_withRun hsort)

theorem entries_pushFronts : ∀ (left run : Nat) (owned : Owned α),
    (task.pushFronts left run owned).1.entries = owned.entries
  | 0, _, _ => rfl
  | left + 1, run, owned => by
    unfold Task.pushFronts
    split
    next => rfl
    next => rw [entries_pushFronts left (run + 1)]; rfl

/-- An entry that is moved out of its cell is in the cells no more. -/
theorem clear_perm (runs : List (List (Option α))) (run index : Nat) :
    ((Task.cell runs run index).toList ++ (Task.clear runs run index).flatten.reduceOption).Perm
      runs.flatten.reduceOption := by
  unfold Task.cell Task.clear
  rcases hrun : runs[run]? with _ | cells
  · have hlen : runs.length ≤ run := List.getElem?_eq_none_iff.mp hrun
    rw [List.modify_eq_self hlen]
    exact List.Perm.refl _
  obtain ⟨hlt, rfl⟩ := List.getElem?_eq_some_iff.mp hrun
  have hsplit : runs = runs.take run ++ runs[run] :: runs.drop (run + 1) := by
    rw [← List.drop_eq_getElem_cons hlt, List.take_append_drop]
  have hclear : runs.modify run (fun cells => cells.set index none) =
      runs.take run ++ runs[run].set index none :: runs.drop (run + 1) := by
    rw [List.modify_eq_take_cons_drop hlt]
  rw [hclear, Option.bind_some]
  conv_rhs => rw [hsplit]
  simp only [List.flatten_append, List.flatten_cons, List.reduceOption_append]
  have hcells : ((runs[run])[index]?.join.toList ++ (runs[run].set index none).reduceOption).Perm
      (runs[run]).reduceOption := by
    generalize runs[run] = cells
    rcases hcell : cells[index]? with _ | entry
    · rw [List.set_eq_of_length_le (List.getElem?_eq_none_iff.mp hcell)]
      exact List.Perm.refl _
    obtain ⟨hi, rfl⟩ := List.getElem?_eq_some_iff.mp hcell
    rw [List.set_eq_take_append_cons_drop, if_pos hi]
    conv_rhs => rw [← List.take_append_drop index cells, List.drop_eq_getElem_cons hi]
    rw [List.reduceOption_append, List.reduceOption_append, List.reduceOption_cons_of_none]
    cases hentry : cells[index] with
    | none =>
      rw [List.reduceOption_cons_of_none]
      exact List.Perm.refl _
    | some entry =>
      rw [List.reduceOption_cons_of_some]
      have hmiddle : (entry :: ((cells.take index).reduceOption ++
          (cells.drop (index + 1)).reduceOption)).Perm _ := List.perm_middle.symm
      exact hmiddle
  refine List.perm_append_comm_assoc _ _ _ |>.trans ?_
  refine List.Perm.append_left _ ?_
  rw [← List.append_assoc]
  exact hcells.append_right _

theorem entries_merge : ∀ (turns : Nat) (owned : Owned α),
    (task.merge turns owned).1.entries.Perm owned.entries
  | 0, owned => List.Perm.refl _
  | turns + 1, owned => by
    unfold Task.merge
    split
    next => exact List.Perm.refl _
    next =>
      split
      next => exact List.Perm.refl _
      next =>
        dsimp only
        split
        next => exact List.Perm.refl _
        next top _ =>
          split
          next => exact List.Perm.refl _
          next =>
            split
            next => exact List.Perm.refl _
            next =>
              refine (entries_merge turns _).trans ?_
              unfold Owned.entries
              rw [List.append_assoc, List.append_assoc]
              refine List.Perm.append_left _ ?_
              have hmoved := clear_perm owned.runs top.listIndex top.at_
              refine List.perm_append_comm.trans ?_
              rw [List.append_assoc]
              exact (hmoved.append_left _).trans List.perm_append_comm

theorem Phase.entries_next {first second : Phase α} {owned : Owned α}
    (hfirst : (first owned).1.entries.Perm owned.entries)
    (hsecond : ∀ after, (second after).1.entries.Perm after.entries) :
    (Phase.next first second owned).1.entries.Perm owned.entries := by
  unfold Phase.next
  split
  next after heq =>
    rw [heq] at hfirst
    exact (hsecond after).trans hfirst
  next after stop heq =>
    rw [heq] at hfirst
    exact hfirst

/-- **The work makes no entry and loses none.** -/
theorem entries_body (charge : Nat → Nat) (source : List α) :
    (task.body charge source).1.entries.Perm source := by
  have hstart : (⟨source, [], [], []⟩ : Owned α).entries = source := by
    unfold Owned.entries
    simp
  unfold Task.body
  split
  next => rw [hstart]
  next runSize _ =>
    refine List.Perm.trans (Phase.entries_next (entries_buildRuns task runSize _ _) ?_)
      (List.Perm.of_eq hstart)
    intro after
    refine Phase.entries_next (List.Perm.of_eq (entries_pushFronts task _ _ _)) ?_
    exact entries_merge task _

end Keeping

theorem Owned.leftovers_perm (owned : Owned α) :
    (owned.leftovers ++ owned.output).Perm owned.entries := by
  unfold Owned.leftovers Owned.entries
  refine List.Perm.append_right _ (List.Perm.append_left _ ?_)
  induction owned.runs with
  | nil => exact List.Perm.refl _
  | cons run runs ih =>
    rw [List.reverse_cons, List.flatMap_append, List.flatten_cons, List.reduceOption_append]
    refine List.perm_append_comm.trans (List.Perm.append ?_ ih)
    rw [List.flatMap_singleton]
    exact List.Perm.filterMap id run.reverse_perm

/-! ## Runs part of the way through -/

/-- A run some of whose cells are empty: how many are, and what is left. -/
structure Tail (α : Type) where
  moved : Nat
  rest : List α

def Tail.cells (tail : Tail α) : List (Option α) := List.replicate tail.moved none ++ tail.rest.map some

/-- The fronts of the tails that have one, as the heap holds them; the first tail is run `base`. -/
def fronts : Nat → List (Tail α) → List (HeapEntry α)
  | _, [] => []
  | base, ⟨_, []⟩ :: tails => fronts (base + 1) tails
  | base, ⟨moved, value :: _⟩ :: tails => ⟨value, base, moved⟩ :: fronts (base + 1) tails

theorem fronts_append (base : Nat) (tails tails' : List (Tail α)) :
    fronts base (tails ++ tails') = fronts base tails ++ fronts (base + tails.length) tails' := by
  induction tails generalizing base with
  | nil => rfl
  | cons tail tails ih =>
    have hbase : base + (tails.length + 1) = base + 1 + tails.length := by omega
    rcases tail with ⟨moved, _ | ⟨value, rest⟩⟩
    · rw [List.cons_append, fronts, fronts, ih, List.length_cons, hbase]
    · rw [List.cons_append, fronts, fronts, ih, List.length_cons, hbase]
      rfl

/-- What is on the heap is the front of a tail. -/
theorem mem_fronts {entry : HeapEntry α} : ∀ (base : Nat) {tails : List (Tail α)},
    entry ∈ fronts base tails → ∃ before rest after,
      tails = before ++ ⟨entry.at_, entry.value :: rest⟩ :: after ∧ entry.listIndex = base + before.length
  | _, [], h => nomatch h
  | base, ⟨moved, []⟩ :: tails, h => by
    obtain ⟨before, rest, after, rfl, hindex⟩ := mem_fronts (base + 1) h
    refine ⟨⟨moved, []⟩ :: before, rest, after, rfl, ?_⟩
    rw [hindex, List.length_cons]
    omega
  | base, ⟨moved, value :: rest⟩ :: tails, h => by
    rcases List.mem_cons.mp h with rfl | h
    · exact ⟨[], rest, tails, rfl, rfl⟩
    · obtain ⟨before, rest', after, rfl, hindex⟩ := mem_fronts (base + 1) h
      refine ⟨⟨moved, value :: rest⟩ :: before, rest', after, rfl, ?_⟩
      rw [hindex, List.length_cons]
      omega

/-- And the front of every tail is on the heap. -/
theorem front_mem {tail : Tail α} {value : α} {rest : List α} (hrest : tail.rest = value :: rest) :
    ∀ (base : Nat) {tails : List (Tail α)}, tail ∈ tails →
      ∃ entry ∈ fronts base tails, entry.value = value
  | _, [], h => nomatch h
  | base, head :: tails, h => by
    rcases List.mem_cons.mp h with rfl | h
    · rcases tail with ⟨moved, _ | ⟨value', rest'⟩⟩
      · cases hrest
      · cases hrest
        exact ⟨_, List.mem_cons_self .., rfl⟩
    · obtain ⟨entry, hentry, hvalue⟩ := front_mem hrest (base + 1) h
      refine ⟨entry, ?_, hvalue⟩
      rcases head with ⟨moved, _ | ⟨value', rest'⟩⟩
      · exact hentry
      · exact List.mem_cons_of_mem _ hentry

section Cells

variable {before after : List (Tail α)} {tail : Tail α}

theorem cell_cells (index : Nat) :
    Task.cell ((before ++ tail :: after).map Tail.cells) before.length index = tail.cells[index]?.join := by
  unfold Task.cell
  rw [List.map_append, List.map_cons]
  have hat : (before.map Tail.cells ++ tail.cells :: after.map Tail.cells)[before.length]? =
      some tail.cells := by
    rw [List.getElem?_append_right (Nat.le_of_eq (List.length_map _)), List.length_map, Nat.sub_self]
    rfl
  rw [hat, Option.bind_some]

theorem Tail.cells_front {moved : Nat} (rest : List α) :
    (Tail.cells ⟨moved, rest⟩)[moved]?.join = rest.head? := by
  unfold Tail.cells
  rw [List.getElem?_append_right (Nat.le_of_eq (List.length_replicate)), List.length_replicate,
    Nat.sub_self]
  cases rest with
  | nil => rfl
  | cons value rest => rfl

/-- Moving the front of a tail out of its cell leaves the tail after it. -/
theorem clear_cells {moved : Nat} {value : α} {rest : List α} :
    Task.clear ((before ++ ⟨moved, value :: rest⟩ :: after).map Tail.cells) before.length moved =
      (before ++ ⟨moved + 1, rest⟩ :: after).map Tail.cells := by
  unfold Task.clear
  have hset : (Tail.cells ⟨moved, value :: rest⟩).set moved none = Tail.cells ⟨moved + 1, rest⟩ := by
    unfold Tail.cells
    rw [List.set_append_right _ _ (Nat.le_of_eq List.length_replicate), List.length_replicate,
      Nat.sub_self, List.map_cons, List.set_cons_zero, List.replicate_succ', List.append_assoc]
    rfl
  rw [List.map_append, List.map_append, List.map_cons, List.map_cons, ← hset]
  have hlen : (before.map Tail.cells).length = before.length := List.length_map _
  rw [List.modify_eq_take_drop, List.take_left' hlen, List.drop_left' hlen]
  rfl

end Cells

end KwaqueStorage.Collection
