import KwaqueStorage.WalQueue.Queue

/-!
# What the queue keeps over every run

The extents of the queued nodes lie one after another in the file, and the two counters are the sums of what
each node was admitted with. Both rest on a node keeping its extent and its group from the moment it is made:
whatever becomes of it, `pop` takes off what `push` put on. Because the extents are adjacent the walk of
`ready_prefix` never meets a hole, and because its totals only grow it stops at the longest prefix.
-/

namespace KwaqueStorage.WalQueue

open Lib
open Function (update update_of_ne update_self)

namespace Queue

/-- What a list of nodes holds together, by one of their sizes. -/
def total (nodes : Nat → Node) (size : Node → Nat) (ids : List Nat) : Nat :=
  (ids.map fun id => size (nodes id)).sum

/-- What holds of the queue after every step. -/
structure Kept (q : Queue) : Prop where
  made_ : ∀ id ∈ q.inflight, id < q.made
  linked : ∀ id ∈ q.inflight, (q.nodes id).linked = true
  adjacent : q.inflight.IsChain fun a b => (q.nodes a).extent.end_ = (q.nodes b).extent.begin_
  bytes_eq : q.bytes = total q.nodes (fun node => node.extent.count) q.inflight
  retained_eq : q.retainedBytes = total q.nodes Node.retained q.inflight
  bytes_le : q.bytes ≤ q.maximumBytes
  retained_le : q.retainedBytes ≤ q.maximumBytes
  length_le : q.inflight.length ≤ q.maximum
  fresh : ∀ id, q.made ≤ id → (q.nodes id).linked = false

section Kept

variable {q q' : Queue} {id : Nat} {node : Node} {nodes nodes' : Nat → Node} {size : Node → Nat}

theorem total_append {ids ids' : List Nat} :
    total nodes size (ids ++ ids') = total nodes size ids + total nodes size ids' := by
  unfold total
  rw [List.map_append, List.sum_append]

theorem total_cons {ids : List Nat} :
    total nodes size (id :: ids) = size (nodes id) + total nodes size ids := by
  unfold total
  rw [List.map_cons, List.sum_cons]

theorem total_congr {ids : List Nat} (h : ∀ id ∈ ids, size (nodes' id) = size (nodes id)) :
    total nodes' size ids = total nodes size ids := by
  unfold total
  rw [List.map_congr_left h]

theorem kept_empty (maximum maximumBytes : Nat) : (empty maximum maximumBytes).Kept where
  made_ := fun _ h => nomatch h
  linked := fun _ h => nomatch h
  adjacent := List.isChain_nil
  bytes_eq := rfl
  retained_eq := rfl
  bytes_le := Nat.zero_le _
  retained_le := Nat.zero_le _
  length_le := Nat.zero_le _
  fresh := fun _ _ => rfl

/-- **The queue is kept by whatever keeps the extents, the groups and the links of the queued nodes.** -/
theorem Kept.of_same (h : q.Kept) (hinflight : q'.inflight = q.inflight) (hbytes : q'.bytes = q.bytes)
    (hretained : q'.retainedBytes = q.retainedBytes) (hmaximum : q'.maximum = q.maximum)
    (hmost : q'.maximumBytes = q.maximumBytes) (hmade : q.made ≤ q'.made)
    (hsame : ∀ id ∈ q.inflight, (q'.nodes id).extent = (q.nodes id).extent
      ∧ (q'.nodes id).group = (q.nodes id).group ∧ (q'.nodes id).linked = (q.nodes id).linked)
    (hfresh : ∀ id, q'.made ≤ id → (q'.nodes id).linked = false) : q'.Kept where
  made_ := fun id hid => (h.made_ id (hinflight ▸ hid)).trans_le hmade
  linked := by
    intro id hid
    rw [hinflight] at hid
    rw [(hsame id hid).2.2]
    exact h.linked id hid
  adjacent := by
    rw [hinflight]
    refine List.IsChain.imp_of_mem_imp ?_ h.adjacent
    intro a b ha hb hab
    rw [(hsame a ha).1, (hsame b hb).1]
    exact hab
  bytes_eq := by
    rw [hbytes, hinflight, h.bytes_eq]
    refine (total_congr ?_).symm
    intro id hid
    rw [(hsame id hid).1]
  retained_eq := by
    rw [hretained, hinflight, h.retained_eq]
    refine (total_congr ?_).symm
    intro id hid
    unfold Node.retained
    rw [(hsame id hid).1, (hsame id hid).2.1]
  bytes_le := by
    rw [hbytes, hmost]
    exact h.bytes_le
  retained_le := by
    rw [hretained, hmost]
    exact h.retained_le
  length_le := by
    rw [hinflight, hmaximum]
    exact h.length_le
  fresh := hfresh

/-- A change of one node that keeps its extent, its group and its link. -/
theorem Kept.set (h : q.Kept) (hid : id < q.made) (hextent : node.extent = (q.nodes id).extent)
    (hgroup : node.group = (q.nodes id).group) (hlinked : node.linked = (q.nodes id).linked) :
    (q.set id node).Kept := by
  refine h.of_same rfl rfl rfl rfl rfl (Nat.le_refl _) ?_ ?_
  · intro other _
    by_cases hother : other = id
    · subst hother
      unfold Queue.set
      dsimp only
      rw [update_self]
      exact ⟨hextent, hgroup, hlinked⟩
    · unfold Queue.set
      dsimp only
      rw [update_of_ne hother]
      exact ⟨rfl, rfl, rfl⟩
  · intro other hother
    have hne : other ≠ id := Nat.ne_of_gt (hid.trans_le hother)
    unfold Queue.set
    dsimp only
    rw [update_of_ne hne]
    exact h.fresh other hother

/-- The queue without its first node. -/
def popped (q : Queue) (id : Nat) (rest : List Nat) : Queue :=
  { q with
    bytes := q.bytes - (q.nodes id).extent.count
    retainedBytes := q.retainedBytes - (q.nodes id).retained
    inflight := rest }

theorem Kept.popped (h : q.Kept) {rest : List Nat} (hfront : q.inflight = id :: rest) :
    (q.popped id rest).Kept := by
  have hbytes := h.bytes_eq
  have hretained := h.retained_eq
  have hlength := h.length_le
  have hbound := h.bytes_le
  have hbound' := h.retained_le
  rw [hfront, total_cons] at hbytes hretained
  rw [hfront, List.length_cons] at hlength
  refine ⟨?_, ?_, ?_, ?_, ?_, ?_, ?_, ?_, h.fresh⟩
  · intro other hother
    exact h.made_ other (hfront ▸ List.mem_cons_of_mem _ hother)
  · intro other hother
    exact h.linked other (hfront ▸ List.mem_cons_of_mem _ hother)
  · exact (hfront ▸ h.adjacent : (id :: rest).IsChain _).tail
  · show q.bytes - (q.nodes id).extent.count = total q.nodes (fun node => node.extent.count) rest
    omega
  · show q.retainedBytes - (q.nodes id).retained = total q.nodes Node.retained rest
    omega
  · exact (Nat.sub_le _ _).trans hbound
  · exact (Nat.sub_le _ _).trans hbound'
  · exact (Nat.le_succ _).trans hlength

/-- The nodes once one of them is linked. -/
def linkedNodes (q : Queue) (id : Nat) : Nat → Node :=
  update q.nodes id { q.nodes id with linked := true }

/-- The queue with a node at its back. -/
def pushed (q : Queue) (id : Nat) : Queue :=
  { q with
    nodes := q.linkedNodes id
    inflight := q.inflight ++ [id]
    bytes := q.bytes + (q.nodes id).extent.count
    retainedBytes := q.retainedBytes + (q.nodes id).retained }

theorem push_eq_ok (h : q.push id = .ok q') : (q.nodes id).linked = false ∧ q.inflight.length < q.maximum
    ∧ q.bytes + (q.nodes id).extent.count ≤ q.maximumBytes
    ∧ q.retainedBytes + (q.nodes id).retained ≤ q.maximumBytes ∧ q.follows id ∧ q' = q.pushed id := by
  unfold push at h
  simp only [bind_eq_ok, require_eq_ok, pure_eq_ok] at h
  obtain ⟨_, ⟨hlinked, _⟩, _, ⟨hlength, _, hbytes, _, hretained⟩, _, hfollows, rfl⟩ := h
  exact ⟨hlinked, hlength, hbytes, hretained, hfollows, rfl⟩

/-- A link changes nothing else of a node. -/
theorem linkedNodes_same (other : Nat) : (q.linkedNodes id other).extent = (q.nodes other).extent
    ∧ (q.linkedNodes id other).retained = (q.nodes other).retained := by
  unfold linkedNodes
  by_cases hother : other = id
  · subst hother
    rw [update_self]
    exact ⟨rfl, rfl⟩
  · rw [update_of_ne hother]
    exact ⟨rfl, rfl⟩

theorem Kept.push (h : q.Kept) (hid : id < q.made) (hpush : q.push id = .ok q') : q'.Kept := by
  obtain ⟨hlinked, hlength, hbytes, hretained, hfollows, rfl⟩ := push_eq_ok hpush
  have hnew : id ∉ q.inflight := by
    intro hmem
    exact absurd (hlinked.symm.trans (h.linked id hmem)) (by decide)
  refine ⟨?_, ?_, ?_, ?_, ?_, hbytes, hretained, ?_, ?_⟩
  · intro other hother
    rcases List.mem_append.mp hother with hold | hself
    · exact h.made_ other hold
    · rw [List.mem_singleton.mp hself]
      exact hid
  · intro other hother
    show (q.linkedNodes id other).linked = true
    unfold linkedNodes
    rcases List.mem_append.mp hother with hold | hself
    · have hne : other ≠ id := by
        rintro rfl
        exact hnew hold
      rw [update_of_ne hne]
      exact h.linked other hold
    · rw [List.mem_singleton.mp hself, update_self]
  · show (q.inflight ++ [id]).IsChain
      fun a b => (q.linkedNodes id a).extent.end_ = (q.linkedNodes id b).extent.begin_
    refine List.IsChain.append ?_ (List.isChain_singleton _) ?_
    · refine List.IsChain.imp ?_ h.adjacent
      intro a b hab
      rw [(linkedNodes_same a).1, (linkedNodes_same b).1]
      exact hab
    · intro last hlast first hfirst
      obtain rfl : id = first := by simpa using hfirst
      rw [(linkedNodes_same last).1, (linkedNodes_same id).1]
      exact hfollows last hlast
  · show q.bytes + (q.nodes id).extent.count
      = total (q.linkedNodes id) (fun node => node.extent.count) (q.inflight ++ [id])
    have hsame : total (q.linkedNodes id) (fun node => node.extent.count) (q.inflight ++ [id])
        = total q.nodes (fun node => node.extent.count) (q.inflight ++ [id]) := by
      refine total_congr ?_
      intro other _
      rw [(linkedNodes_same other).1]
    rw [hsame, total_append, total_cons, h.bytes_eq]
    rfl
  · show q.retainedBytes + (q.nodes id).retained = total (q.linkedNodes id) Node.retained (q.inflight ++ [id])
    have hsame : total (q.linkedNodes id) Node.retained (q.inflight ++ [id])
        = total q.nodes Node.retained (q.inflight ++ [id]) :=
      total_congr fun other _ => (linkedNodes_same other).2
    rw [hsame, total_append, total_cons, h.retained_eq]
    rfl
  · show (q.inflight ++ [id]).length ≤ q.maximum
    rw [List.length_append, List.length_singleton]
    exact hlength
  · intro other hother
    have hne : other ≠ id := Nat.ne_of_gt (hid.trans_le hother)
    show (q.linkedNodes id other).linked = false
    unfold linkedNodes
    rw [update_of_ne hne]
    exact h.fresh other hother

/-! ## What a step can do -/

/-- **What one step does to the queue.** It changes a node and not what the queue reads of it for its sums and
    its order, makes a node, puts one at the back, or takes the first off once it is done. -/
inductive Moves (q : Queue) : Queue → Prop
  | stays : Moves q q
  | changes {id : Nat} {node : Node} (hid : id < q.made) (hextent : node.extent = (q.nodes id).extent)
      (hgroup : node.group = (q.nodes id).group) (hlinked : node.linked = (q.nodes id).linked) :
      Moves q (q.set id node)
  | makes {node : Node} (hnew : node.linked = false) :
      Moves q { q.set q.made node with made := q.made + 1 }
  | pushes {id : Nat} {q' : Queue} (hid : id < q.made) (hpush : q.push id = .ok q') : Moves q q'
  | pops {id : Nat} {rest : List Nat} (hfront : q.inflight = id :: rest) (hdone : (q.nodes id).state = .done) :
      Moves q (q.popped id rest)
  | retires {id : Nat} {rest : List Nat} (hfront : q.inflight = id :: rest)
      (hdone : (q.nodes id).state = .done) :
      Moves q ((q.popped id rest).set id { q.nodes id with notified := true })

theorem popCompletedFront_cases : q.popCompletedFront = (none, q)
    ∨ ∃ id rest, q.inflight = id :: rest ∧ (q.nodes id).state = .done
      ∧ q.popCompletedFront = (some id, q.popped id rest) := by
  unfold popCompletedFront
  split
  next => exact .inl rfl
  next id rest hfront =>
    split
    next => exact .inl rfl
    next hdone => exact .inr ⟨id, rest, hfront, not_not.mp hdone, rfl⟩

theorem complete_keeps (node : Node) (written : Except Errc Nat) :
    (node.complete written).extent = node.extent ∧ (node.complete written).group = node.group
      ∧ (node.complete written).linked = node.linked := by
  unfold Node.complete
  split
  next => exact ⟨rfl, rfl, rfl⟩
  next =>
    split
    next => exact ⟨rfl, rfl, rfl⟩
    next => exact ⟨rfl, rfl, rfl⟩

theorem step_moves {a : Action} (h : q.step a = some q') : q.Moves q' := by
  cases a with
  | make extent group =>
    rw [step] at h
    split at h
    next =>
      cases h
      exact .makes rfl
    next => cases h
  | push id =>
    rw [step] at h
    split at h
    next hid =>
      split at h
      next q' hpush =>
        cases h
        exact .pushes hid hpush
      next =>
        cases h
        exact .stays
    next => cases h
  | observe id =>
    rw [step] at h
    obtain ⟨hid, ⟨⟩⟩ := Option.ite_none_right_eq_some.mp h
    exact .changes hid.1 rfl rfl rfl
  | encoded id payload held =>
    rw [step] at h
    split at h
    next hid =>
      split at h
      next node hnode =>
        cases h
        unfold Node.encoded at hnode
        simp only [bind_eq_ok, pure_eq_ok] at hnode
        obtain ⟨_, _, _, _, rfl⟩ := hnode
        exact .changes hid.1 rfl rfl rfl
      next =>
        cases h
        exact .stays
    next => cases h
  | encodedGroup id payload =>
    rw [step] at h
    split at h
    next group hgroup =>
      split at h
      next encoding hencoding =>
        split at h
        next hid =>
          split at h
          next node hnode =>
            cases h
            unfold Node.encodedGroup at hnode
            simp only [bind_eq_ok, pure_eq_ok] at hnode
            obtain ⟨_, _, _, _, rfl⟩ := hnode
            exact .changes hid.1 rfl rfl rfl
          next =>
            cases h
            exact .stays
        next => cases h
      next => cases h
    next => cases h
  | dispatch id =>
    rw [step] at h
    obtain ⟨hid, ⟨⟩⟩ := Option.ite_none_right_eq_some.mp h
    exact .changes hid.1 rfl rfl rfl
  | complete id written =>
    rw [step] at h
    obtain ⟨hid, ⟨⟩⟩ := Option.ite_none_right_eq_some.mp h
    obtain ⟨hextent, hgroup, hlinked⟩ := complete_keeps (q.nodes id) written
    exact .changes hid.1 hextent hgroup hlinked
  | fail id failure =>
    rw [step] at h
    obtain ⟨hid, ⟨⟩⟩ := Option.ite_none_right_eq_some.mp h
    exact .changes hid.1 rfl rfl rfl
  | popCompletedFront =>
    rw [step] at h
    cases h
    rcases @popCompletedFront_cases q with hnone | ⟨id, rest, hfront, hdone, hsome⟩
    · rw [hnone]
      exact .stays
    · rw [hsome]
      exact .pops hfront hdone
  | notify id =>
    rw [step] at h
    split at h
    next hid =>
      unfold notify at h
      obtain ⟨_, ⟨⟩⟩ := Option.ite_none_right_eq_some.mp h
      exact .changes hid rfl rfl rfl
    next => cases h
  | retireFront =>
    rw [step] at h
    rcases @popCompletedFront_cases q with hnone | ⟨id, rest, hfront, hdone, hsome⟩
    · rw [hnone] at h
      cases h
      exact .stays
    · rw [hsome] at h
      dsimp only at h
      unfold notify at h
      obtain ⟨_, ⟨⟩⟩ := Option.ite_none_right_eq_some.mp h
      exact .retires hfront hdone

theorem Kept.moves (h : q.Kept) (hmoves : q.Moves q') : q'.Kept := by
  cases hmoves with
  | stays => exact h
  | changes hid hextent hgroup hlinked => exact h.set hid hextent hgroup hlinked
  | makes hnew =>
    refine h.of_same rfl rfl rfl rfl rfl (Nat.le_succ _) ?_ ?_
    · intro other hother
      have hne : other ≠ q.made := Nat.ne_of_lt (h.made_ other hother)
      unfold Queue.set
      dsimp only
      rw [update_of_ne hne]
      exact ⟨rfl, rfl, rfl⟩
    · intro other hother
      have hne : other ≠ q.made := Nat.ne_of_gt hother
      unfold Queue.set
      dsimp only
      rw [update_of_ne hne]
      exact h.fresh other (Nat.le_of_succ_le hother)
  | pushes hid hpush => exact h.push hid hpush
  | pops hfront hdone => exact h.popped hfront
  | @retires id rest hfront hdone =>
    have hid : id < q.made := h.made_ id (hfront ▸ List.mem_cons_self ..)
    exact (h.popped hfront).set hid rfl rfl rfl

/-- **Nodes enter at the back and leave from the front, once they are done.** -/
theorem moves_inflight (hmoves : q.Moves q') : q'.inflight = q.inflight
    ∨ (∃ id, q'.inflight = q.inflight ++ [id] ∧ (q.nodes id).linked = false)
    ∨ ∃ id, q.inflight = id :: q'.inflight ∧ (q.nodes id).state = .done := by
  cases hmoves with
  | stays => exact .inl rfl
  | changes => exact .inl rfl
  | makes => exact .inl rfl
  | @pushes id _ hid hpush =>
    obtain ⟨hlinked, _, _, _, _, rfl⟩ := push_eq_ok hpush
    exact .inr (.inl ⟨id, rfl, hlinked⟩)
  | @pops id rest hfront hdone => exact .inr (.inr ⟨id, hfront, hdone⟩)
  | @retires id rest hfront hdone => exact .inr (.inr ⟨id, hfront, hdone⟩)

theorem moves_maximum (hmoves : q.Moves q') : q'.maximum = q.maximum ∧ q'.maximumBytes = q.maximumBytes := by
  cases hmoves with
  | stays => exact ⟨rfl, rfl⟩
  | changes => exact ⟨rfl, rfl⟩
  | makes => exact ⟨rfl, rfl⟩
  | pushes hid hpush =>
    obtain ⟨_, _, _, _, _, rfl⟩ := push_eq_ok hpush
    exact ⟨rfl, rfl⟩
  | pops => exact ⟨rfl, rfl⟩
  | retires => exact ⟨rfl, rfl⟩

/-! ## The longest prefix -/

/-- The first so many nodes are encoded and within bounds. -/
def Fits (q : Queue) (maximumBytes maximumFragments n : Nat) : Prop :=
  n ≤ q.inflight.length ∧ (∀ id ∈ q.inflight.take n, (q.nodes id).state = .queued)
    ∧ total q.nodes (fun node => node.payload.size) (q.inflight.take n) ≤ maximumBytes
    ∧ total q.nodes (fun node => node.payload.retainedBytes) (q.inflight.take n) ≤ maximumBytes
    ∧ total q.nodes (fun node => node.payload.fragmentCount) (q.inflight.take n) ≤ maximumFragments

instance (q : Queue) (maximumBytes maximumFragments n : Nat) :
    Decidable (q.Fits maximumBytes maximumFragments n) := by
  unfold Fits
  exact inferInstance

/-- What the first so many nodes hold together. -/
def gatherOf (q : Queue) (n : Nat) : ReadyGather where
  groups := n
  fragments := total q.nodes (fun node => node.payload.fragmentCount) (q.inflight.take n)
  logical := total q.nodes (fun node => node.payload.size) (q.inflight.take n)
  retained := total q.nodes (fun node => node.payload.retainedBytes) (q.inflight.take n)

/-- The longest prefix within bounds. -/
def Longest (q : Queue) (maximumBytes maximumFragments n : Nat) : Prop :=
  q.Fits maximumBytes maximumFragments n ∧ ∀ m, q.Fits maximumBytes maximumFragments m → m ≤ n

theorem total_take_le {ids : List Nat} {n m : Nat} (h : n ≤ m) :
    total nodes size (ids.take n) ≤ total nodes size (ids.take m) := by
  obtain ⟨rest, hrest⟩ := List.take_prefix_take_left h (l := ids)
  rw [← hrest, total_append]
  exact Nat.le_add_right _ _

/-- A shorter prefix fits too, so a node that does not fit ends the longest. -/
theorem Fits.shorter {maximumBytes maximumFragments n m : Nat} (h : q.Fits maximumBytes maximumFragments m)
    (hn : n ≤ m) : q.Fits maximumBytes maximumFragments n := by
  obtain ⟨hlength, hqueued, hbytes, hretained, hfragments⟩ := h
  refine ⟨hn.trans hlength, ?_, (total_take_le hn).trans hbytes, (total_take_le hn).trans hretained,
    (total_take_le hn).trans hfragments⟩
  intro id hid
  exact hqueued id ((List.take_prefix_take_left hn).subset hid)

theorem longest_of_next {maximumBytes maximumFragments n : Nat} (h : q.Fits maximumBytes maximumFragments n)
    (hnext : ¬ q.Fits maximumBytes maximumFragments (n + 1)) : q.Longest maximumBytes maximumFragments n := by
  refine ⟨h, ?_⟩
  intro m hm
  by_contra hmore
  exact hnext (hm.shorter (Nat.lt_of_not_le hmore))

/-- One node more of the queue. -/
theorem take_next {done rest : List Nat} (hsplit : q.inflight = done ++ id :: rest) :
    q.inflight.take (done.length + 1) = done ++ [id] := by
  rw [hsplit, List.take_append, List.take_of_length_le (Nat.le_succ _), Nat.add_sub_cancel_left]
  rfl

theorem fits_next {maximumBytes maximumFragments : Nat} {done rest : List Nat}
    (hsplit : q.inflight = done ++ id :: rest) (h : q.Fits maximumBytes maximumFragments done.length) :
    q.Fits maximumBytes maximumFragments (done.length + 1) ↔ (q.nodes id).state = .queued
      ∧ (q.gatherOf done.length).logical + (q.nodes id).payload.size ≤ maximumBytes
      ∧ (q.gatherOf done.length).retained + (q.nodes id).payload.retainedBytes ≤ maximumBytes
      ∧ (q.gatherOf done.length).fragments + (q.nodes id).payload.fragmentCount ≤ maximumFragments := by
  have hdone : q.inflight.take done.length = done := by rw [hsplit, List.take_left]
  have hlength : done.length + 1 ≤ q.inflight.length := by
    rw [hsplit, List.length_append, List.length_cons]
    omega
  have hsum : ∀ size, total q.nodes size (done ++ [id]) = total q.nodes size done + size (q.nodes id) := by
    intro size
    rw [total_append, total_cons]
    rfl
  unfold Fits gatherOf at *
  rw [take_next hsplit, hsum, hsum, hsum, hdone]
  rw [hdone] at h
  constructor
  · rintro ⟨_, hqueued, hrest⟩
    exact ⟨hqueued id (List.mem_append_right _ (List.mem_singleton_self _)), hrest⟩
  · rintro ⟨hqueued, hrest⟩
    refine ⟨hlength, ?_, hrest⟩
    intro other hother
    rcases List.mem_append.mp hother with hold | hself
    · exact h.2.1 other hold
    · rw [List.mem_singleton.mp hself]
      exact hqueued

theorem gatherOf_next {done rest : List Nat} (hsplit : q.inflight = done ++ id :: rest) :
    q.gatherOf (done.length + 1)
      = ⟨done.length + 1, (q.gatherOf done.length).fragments + (q.nodes id).payload.fragmentCount,
        (q.gatherOf done.length).logical + (q.nodes id).payload.size,
        (q.gatherOf done.length).retained + (q.nodes id).payload.retainedBytes⟩ := by
  have hdone : q.inflight.take done.length = done := by rw [hsplit, List.take_left]
  unfold gatherOf
  rw [take_next hsplit, hdone, total_append, total_append, total_append, total_cons, total_cons, total_cons]
  rfl

/-- The walk ends at the longest prefix and meets no hole. The induction is on the nodes it has not come
    to. -/
theorem Kept.gather_longest (h : q.Kept) {maximumBytes maximumFragments : Nat}
    (hmaximum : maximumBytes ≤ u64Max) : ∀ {rest done : List Nat} {end_ : Nat}, q.inflight = done ++ rest
      → q.Fits maximumBytes maximumFragments done.length
      → (∀ last ∈ done.getLast?, end_ = (q.nodes last).extent.end_)
      → ∃ n, q.gather maximumBytes maximumFragments rest (q.gatherOf done.length) end_ = some (q.gatherOf n)
        ∧ q.Longest maximumBytes maximumFragments n := by
  intro rest
  induction rest with
  | nil =>
    intro done end_ hsplit hfits _
    refine ⟨done.length, rfl, hfits, ?_⟩
    intro m hm
    rw [List.append_nil] at hsplit
    rw [← hsplit]
    exact hm.1
  | cons id rest ih =>
    intro done end_ hsplit hfits hend
    have hnext := fits_next hsplit hfits
    rw [gather]
    dsimp only
    split
    next hstate => exact ⟨done.length, rfl, longest_of_next hfits fun hmore => hstate (hnext.mp hmore).1⟩
    next hstate =>
      split
      next hpast =>
        refine ⟨done.length, rfl, longest_of_next hfits ?_⟩
        intro hmore
        obtain ⟨_, hbytes, hretained, hfragments⟩ := hnext.mp hmore
        omega
      next hwithin =>
        -- the extents are adjacent, so the node begins where the one before it ends
        have hadjacent : (q.gatherOf done.length).groups = 0 ∨ (q.nodes id).extent.begin_ = end_ := by
          cases hlast : done.getLast? with
          | none =>
            rw [List.getLast?_eq_none_iff] at hlast
            exact .inl (by rw [hlast]; rfl)
          | some last =>
            right
            have hchain := h.adjacent
            rw [hsplit, List.isChain_append] at hchain
            rw [hend last hlast]
            exact (hchain.2.2 last hlast id rfl).symm
        rw [if_pos hadjacent]
        have hmore : q.Fits maximumBytes maximumFragments (done.length + 1) :=
          hnext.mpr ⟨not_not.mp hstate, by omega, by omega, by omega⟩
        have hsplit' : q.inflight = (done ++ [id]) ++ rest := by
          rw [hsplit, List.append_assoc, List.singleton_append]
        have hlength : (done ++ [id]).length = done.length + 1 := by
          rw [List.length_append, List.length_singleton]
        obtain ⟨n, hn, hlongest⟩ := @ih (done ++ [id]) (q.nodes id).extent.end_ hsplit' (hlength ▸ hmore)
          (by
            intro last hlast
            obtain rfl : id = last := by simpa using hlast
            rfl)
        refine ⟨n, ?_, hlongest⟩
        rw [← hn, hlength, gatherOf_next hsplit]
        rfl

theorem Kept.readyPrefix_longest (h : q.Kept) (maximumBytes maximumFragments : Nat) :
    ∃ n, q.readyPrefix maximumBytes maximumFragments = some (q.gatherOf n)
      ∧ q.Longest (min maximumBytes maximumFileIoBytes) (min maximumFragments maxBufferFragments) n := by
  have hmaximum : min maximumBytes maximumFileIoBytes ≤ u64Max := (Nat.min_le_right _ _).trans (by decide)
  refine h.gather_longest hmaximum (@List.nil_append _ _).symm ?_ ?_
  · refine ⟨Nat.zero_le _, ?_, Nat.zero_le _, Nat.zero_le _, Nat.zero_le _⟩
    intro id hid
    rw [List.length_nil, List.take_zero] at hid
    cases hid
  · intro last hlast
    cases hlast

end Kept

/-! ## Every run -/

/-- **The WAL descriptor queue.** After any steps from an empty queue of a maximum, the extents of the queued
    nodes lie one after another in the file, the two counters are the sums over the queued nodes and within
    the maximum, and the next step leaves the queue as it is, puts a node that was in it never before at its
    back, or takes its first node off, which is done. Whatever bounds are asked, `ready_prefix` meets no hole
    and answers with the longest prefix of encoded nodes whose bytes, backing and fragments are within them
    and within what one gathered write carries. -/
theorem descriptor_queue_run {maximum maximumBytes : Nat} {q : Queue}
    (h : (system maximum maximumBytes).Reachable q) :
    (q.inflight.IsChain fun a b => (q.nodes a).extent.end_ = (q.nodes b).extent.begin_)
      ∧ q.bytes = total q.nodes (fun node => node.extent.count) q.inflight
      ∧ q.retainedBytes = total q.nodes Node.retained q.inflight
      ∧ q.bytes ≤ maximumBytes ∧ q.retainedBytes ≤ maximumBytes ∧ q.inflight.length ≤ maximum
      ∧ (∀ a q', q.step a = some q' → q'.inflight = q.inflight
        ∨ (∃ id, q'.inflight = q.inflight ++ [id] ∧ (q.nodes id).linked = false)
        ∨ ∃ id, q.inflight = id :: q'.inflight ∧ (q.nodes id).state = .done)
      ∧ ∀ mostBytes mostFragments, ∃ n, q.readyPrefix mostBytes mostFragments = some (q.gatherOf n)
        ∧ q.Longest (min mostBytes maximumFileIoBytes) (min mostFragments maxBufferFragments) n := by
  have hkept : q.Kept ∧ q.maximum = maximum ∧ q.maximumBytes = maximumBytes := by
    refine @System.Run.invariant _ _ _ _
      (fun q => q.Kept ∧ q.maximum = maximum ∧ q.maximumBytes = maximumBytes) ?_ ?_ _ h
    · rintro q rfl
      exact ⟨kept_empty maximum maximumBytes, rfl, rfl⟩
    · rintro q a q' _ ⟨hkept, hmaximum, hmost⟩ _ hstep
      have hmoves := step_moves hstep
      obtain ⟨hsame, hsame'⟩ := moves_maximum hmoves
      exact ⟨hkept.moves hmoves, hsame.trans hmaximum, hsame'.trans hmost⟩
  obtain ⟨hkept, rfl, rfl⟩ := hkept
  exact ⟨hkept.adjacent, hkept.bytes_eq, hkept.retained_eq, hkept.bytes_le, hkept.retained_le, hkept.length_le,
    fun a q' hstep => moves_inflight (step_moves hstep), hkept.readyPrefix_longest⟩

/-- Two writes of forty mebibytes each, both encoded. -/
def exampleActions : List Action :=
  [.make ⟨0, 41943040⟩ none, .make ⟨41943040, 83886080⟩ none, .push 0, .push 1,
    .encoded 0 ⟨41943040, 41943040, 1, .ok 41943040⟩ 41943040,
    .encoded 1 ⟨41943040, 41943040, 1, .ok 41943040⟩ 41943040]

/-- What they lead to. -/
theorem exampleActions_exec : ∃ q, (system 4 (2 ^ 30)).Reachable q ∧ q.bytes = 83886080
    ∧ q.readyPrefix (2 ^ 40) maxBufferFragments = some (q.gatherOf 1)
    ∧ q.Fits (2 ^ 40) maxBufferFragments 2 := by
  have hall : ∃ q ∈ (system 4 (2 ^ 30)).exec (empty 4 (2 ^ 30)) exampleActions, q.bytes = 83886080
      ∧ q.readyPrefix (2 ^ 40) maxBufferFragments = some (q.gatherOf 1)
      ∧ q.Fits (2 ^ 40) maxBufferFragments 2 := by decide +kernel
  obtain ⟨q, hq, hfacts⟩ := hall
  exact ⟨q, System.Run.of_exec (.init rfl) hq, hfacts⟩

theorem descriptor_queue_run_two : ∃ q, (system 4 (2 ^ 30)).Reachable q ∧ q.bytes = 83886080
    ∧ q.bytes = total q.nodes (fun node => node.extent.count) q.inflight := by
  obtain ⟨q, hreachable, hbytes, _⟩ := exampleActions_exec
  exact ⟨q, hreachable, hbytes, (descriptor_queue_run hreachable).2.1⟩

/-- Asked for more than one gathered write carries, `ready_prefix` stops before the longest prefix within
    what was asked. -/
theorem readyPrefix_capped : ∃ q, (system 4 (2 ^ 30)).Reachable q
    ∧ q.readyPrefix (2 ^ 40) maxBufferFragments = some (q.gatherOf 1)
    ∧ ¬ q.Longest (2 ^ 40) maxBufferFragments 1 := by
  obtain ⟨q, hreachable, _, hready, htwo⟩ := exampleActions_exec
  refine ⟨q, hreachable, hready, ?_⟩
  rintro ⟨_, hlongest⟩
  exact absurd (hlongest 2 htwo) (by decide)

end Queue

end KwaqueStorage.WalQueue
