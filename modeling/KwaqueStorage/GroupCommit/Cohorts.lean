import KwaqueStorage.GroupCommit.Commit

/-!
# The queue is cohorts

The queue is a list of closed cohorts and the one that forms behind them: each closed one ends with the
only node of it that is sealed, and no node of the last is sealed (`Shape`). What is captured is the
first. Everything the owner does between two awaits keeps this, together with the numbers of the
tickets (`Kept`).
-/

namespace KwaqueStorage.GroupCommit

namespace Commit

/-- A cohort that grows no more: its last node is sealed, and no other. -/
def Closed (run : List Node) : Prop :=
  ∃ init last, run = init ++ [last] ∧ last.sealed_ = true ∧ ∀ n ∈ init, n.sealed_ = false

/-- A cohort of more than one group is within the targets. -/
def Within (config : Config) (run : List Node) : Prop :=
  1 < run.length → (run.map Node.members).sum ≤ config.targetMembers
    ∧ (run.map Node.bytes).sum ≤ config.targetBytes

/-- The capture is of the cohort. -/
structure Captures (c : Capture) (run : List Node) : Prop where
  nodes : c.nodes = run.map Node.id
  members : c.members = (run.map Node.members).sum
  bytes : c.bytes = (run.map Node.bytes).sum
  boundary : run.getLast?.map Node.boundary = some c.boundary

/-- The queue as cohorts, and the tail that forms. -/
structure Shape (q : Commit) (cohorts : List (List Node)) (tail : List Node) : Prop where
  queue : q.queue = cohorts.flatten ++ tail
  closed : ∀ run ∈ cohorts, Closed run
  within : ∀ run ∈ cohorts, Within q.config run
  open_ : ∀ n ∈ tail, n.sealed_ = false
  tailWithin : Within q.config tail
  forming : q.formingTail = tail.getLast?.map Node.id
  members : tail ≠ [] → q.formingMembers = (tail.map Node.members).sum
  bytes : tail ≠ [] → q.formingBytes = (tail.map Node.bytes).sum
  active : ∀ c, q.active = some c → ∃ run rest, cohorts = run :: rest ∧ Captures c run

/-- How many groups the active capture has. -/
def activeGroups (q : Commit) : Nat := (q.active.map fun c => c.nodes.length).getD 0

/-- **What the owner keeps of its queue and its tickets.** -/
structure Kept (q : Commit) : Prop where
  shape : ∃ cohorts tail, Shape q cohorts tail
  ids : q.queue.map Node.id = List.range' q.settled.length q.queue.length
  settled : q.settled.map Settled.node = List.range q.settled.length
  captured : q.captures.flatMap Capture.nodes = List.range (q.settled.length + q.activeGroups)
  bounded : ∀ c ∈ q.captures, c.nodes ≠ [] ∧ c.nodes.length ≤ maximumWalCohortGroups
    ∧ (1 < c.nodes.length → c.members ≤ q.config.targetMembers ∧ c.bytes ≤ q.config.targetBytes)
  active : ∀ c, q.active = some c → c ∈ q.captures
  cuts : ∀ r ∈ q.settled, ∃ c ∈ q.captures, r.node ∈ c.nodes ∧ r.cut = c.boundary
  receipts : ∀ r ∈ q.settled, ∀ b, r.outcome.receipt = some b →
    r.outcome.failure = none ∧ b = r.cut ∧ (r.cut, some b) ∈ q.barriers
  fired : q.fired = []

/-! ## The marks on the nodes -/

section Nodes

variable {init rest : List Node} {last n : Node} {run : List Node} {id : Nat}

theorem sealNode_self : sealNode last.id last = { last with sealed_ := true } := by
  unfold sealNode
  rw [if_pos rfl]

theorem sealNode_other (h : n.id ≠ id) : sealNode id n = n := by
  unfold sealNode
  rw [if_neg h]

theorem map_sealNode_other (h : ∀ n ∈ run, n.id ≠ id) : run.map (sealNode id) = run := by
  rw [List.map_congr_left fun n hn => sealNode_other (h n hn), List.map_id']

@[simp] theorem sealNode_id : (sealNode id n).id = n.id := by
  unfold sealNode
  split <;> rfl

@[simp] theorem sealNode_joined : (sealNode id n).joined = n.joined := by
  unfold sealNode
  split <;> rfl

@[simp] theorem joinNode_id : (joinNode id n).id = n.id := by
  unfold joinNode
  split <;> rfl

@[simp] theorem joinNode_members : (joinNode id n).members = n.members := by
  unfold joinNode
  split <;> rfl

@[simp] theorem joinNode_bytes : (joinNode id n).bytes = n.bytes := by
  unfold joinNode
  split <;> rfl

@[simp] theorem joinNode_sealed : (joinNode id n).sealed_ = n.sealed_ := by
  unfold joinNode
  split <;> rfl

@[simp] theorem joinNode_boundary : (joinNode id n).boundary = n.boundary := by
  unfold joinNode
  split <;> rfl

/-- The cohort at the front is the one the capture finds. -/
theorem cohort_closed (h : Closed run) : cohort (run ++ rest) = run := by
  obtain ⟨init, last, rfl, hlast, hinit⟩ := h
  induction init with
  | nil => simp [cohort, hlast]
  | cons n init ih =>
    have hn : n.sealed_ = false := hinit n List.mem_cons_self
    simp only [List.cons_append, cohort, hn, Bool.false_eq_true, if_false]
    rw [ih fun m hm => hinit m (List.mem_cons_of_mem _ hm)]

theorem cohort_open (h : ∀ n ∈ run, n.sealed_ = false) : cohort run = run := by
  induction run with
  | nil => rfl
  | cons n run ih =>
    have hn : n.sealed_ = false := h n List.mem_cons_self
    simp only [cohort, hn, Bool.false_eq_true, if_false]
    rw [ih fun m hm => h m (List.mem_cons_of_mem _ hm)]

theorem Closed.getLast (h : Closed run) : ∃ last, run.getLast? = some last ∧ last.sealed_ = true := by
  obtain ⟨init, last, rfl, hlast, _⟩ := h
  exact ⟨last, List.getLast?_concat, hlast⟩

theorem captureOf_captures (h : run.getLast? = some last) : Captures (captureOf run last) run := by
  refine ⟨rfl, rfl, rfl, ?_⟩
  rw [h]
  rfl

theorem Captures.ne_nil {c : Capture} (h : Captures c run) : c.nodes ≠ [] := by
  intro hnil
  have hempty : run = [] := by
    have hmap := h.nodes
    rw [hnil] at hmap
    exact List.map_eq_nil_iff.mp hmap.symm
  have hlast := h.boundary
  rw [hempty] at hlast
  cases hlast

theorem Captures.length {c : Capture} (h : Captures c run) : c.nodes.length = run.length := by
  rw [h.nodes, List.length_map]

end Nodes

/-! ## The flags that the tasks read -/

/-- What no operation between two awaits changes. -/
structure Flags where
  config : Config
  slots : Nat
  rotating : Bool
  submitting : Bool
  waiting : Bool
  joining : Bool
  flushing : Bool
  serviceEnabled : Bool
  closing : Bool
  closed : Bool

def flags (q : Commit) : Flags :=
  ⟨q.config, q.slots, q.rotating, q.submitting, q.waiting, q.joining, q.flushing, q.serviceEnabled,
    q.closing, q.closed⟩

section Frames

variable {q : Commit}

@[simp] theorem force_active : q.force.active = q.active := by
  unfold force
  split <;> rfl

@[simp] theorem force_length : q.force.queue.length = q.queue.length := by
  unfold force
  split
  · rfl
  · exact List.length_map ..

/-- `q'` is `q` but for its queue's marks, its failures and that it may have stopped. -/
structure Same (q q' : Commit) : Prop where
  flags : q'.flags = q.flags
  active : q'.active = q.active
  length : q'.queue.length = q.queue.length
  barriers : q'.barriers = q.barriers

theorem Same.refl : Same q q := ⟨rfl, rfl, rfl, rfl⟩

theorem Same.trans {q₁ q₂ q₃ : Commit} (h : Same q₁ q₂) (h' : Same q₂ q₃) : Same q₁ q₃ :=
  ⟨h'.flags.trans h.flags, h'.active.trans h.active, h'.length.trans h.length,
    h'.barriers.trans h.barriers⟩

theorem same_force : Same q q.force := by
  unfold force
  split
  · exact Same.refl
  · exact ⟨rfl, rfl, List.length_map .., rfl⟩

theorem same_requestStop : Same q q.requestStop := by
  have hstop : Same q { q with stopped := true } := ⟨rfl, rfl, rfl, rfl⟩
  exact hstop.trans same_force

theorem same_coordinatorFails (why : Fault) : Same q (q.coordinatorFails why) := by
  have hobserved : Same q { q with
      coordinatorFailure := q.coordinatorFailure.or (some why), first := q.first.or (some why) } :=
    ⟨rfl, rfl, rfl, rfl⟩
  exact hobserved.trans same_requestStop

theorem same_remember (failure : Option Fault) : Same q (q.remember failure) := by
  cases failure with
  | none => exact Same.refl
  | some why =>
    have hobserved : Same q { q with
        storageFailure := q.storageFailure.or (some why), first := q.first.or (some why) } :=
      ⟨rfl, rfl, rfl, rfl⟩
    exact hobserved.trans same_requestStop

theorem same_join (id : Nat) (failure : Option Fault) : Same q (q.join id failure) := by
  have hjoined : Same q { q with queue := q.queue.map (joinNode id) } :=
    ⟨rfl, rfl, List.length_map .., rfl⟩
  exact hjoined.trans (same_remember failure)

end Frames

/-! ## The shape of the queue -/

section Shapes

variable {q : Commit} {cohorts : List (List Node)} {tail : List Node}

/-- What a shape says nothing of. -/
theorem Shape.congr {q' : Commit} (h : Shape q cohorts tail) (hqueue : q'.queue = q.queue)
    (hconfig : q'.config = q.config) (htail : q'.formingTail = q.formingTail)
    (hmembers : q'.formingMembers = q.formingMembers) (hbytes : q'.formingBytes = q.formingBytes)
    (hactive : q'.active = q.active) : Shape q' cohorts tail := by
  refine ⟨hqueue.trans h.queue, h.closed, ?_, h.open_, ?_, htail.trans h.forming, ?_, ?_, ?_⟩
  · rw [hconfig]
    exact h.within
  · rw [hconfig]
    exact h.tailWithin
  · rw [hmembers]
    exact h.members
  · rw [hbytes]
    exact h.bytes
  · rw [hactive]
    exact h.active

/-- The last node of the tail is sealed. -/
def sealed_ (tail : List Node) : List Node :=
  match tail.getLast? with
  | none => tail
  | some last => tail.dropLast ++ [{ last with sealed_ := true }]

theorem sealed_concat (init : List Node) (last : Node) :
    sealed_ (init ++ [last]) = init ++ [{ last with sealed_ := true }] := by
  simp [sealed_]

theorem sealed_sums (tail : List Node) : ((sealed_ tail).map Node.members).sum = (tail.map Node.members).sum
    ∧ ((sealed_ tail).map Node.bytes).sum = (tail.map Node.bytes).sum
    ∧ (sealed_ tail).length = tail.length := by
  rcases List.eq_nil_or_concat' tail with rfl | ⟨init, last, rfl⟩
  · exact ⟨rfl, rfl, rfl⟩
  · rw [sealed_concat]
    simp

theorem sealed_closed (hne : tail ≠ []) (hopen : ∀ n ∈ tail, n.sealed_ = false) :
    Closed (sealed_ tail) := by
  rcases List.eq_nil_or_concat' tail with rfl | ⟨init, last, rfl⟩
  · exact absurd rfl hne
  · rw [sealed_concat]
    exact ⟨init, _, rfl, rfl, fun n hn => hopen n (List.mem_append_left _ hn)⟩

/-- Sealing the node at the back of the queue. -/
theorem map_sealNode_back {front : List Node} {init : List Node} {last : Node}
    (hids : ((front ++ (init ++ [last])).map Node.id).Nodup) :
    (front ++ (init ++ [last])).map (sealNode last.id) = front ++ sealed_ (init ++ [last]) := by
  have hother : ∀ n ∈ front ++ init, n.id ≠ last.id := by
    intro n hn heq
    rw [← List.append_assoc, List.map_append, List.map_append, List.nodup_append] at hids
    rw [← List.map_append] at hids
    exact hids.2.2 n.id (List.mem_map_of_mem hn) last.id (by simp) heq
  rw [sealed_concat, List.map_append, List.map_append,
    map_sealNode_other fun n hn => hother n (List.mem_append_left _ hn),
    map_sealNode_other fun n hn => hother n (List.mem_append_right _ hn), List.map_cons, List.map_nil,
    sealNode_self]

/-- **A cohort is closed where the tail is sealed.** -/
theorem Shape.seal_tail (h : Shape q cohorts tail) (hne : tail ≠ []) {q' : Commit}
    (hqueue : q'.queue = cohorts.flatten ++ sealed_ tail) (hconfig : q'.config = q.config)
    (htail : q'.formingTail = none)
    (hactive : ∀ c, q'.active = some c → q.active = some c ∨ (cohorts = [] ∧ Captures c (sealed_ tail))) :
    Shape q' (cohorts ++ [sealed_ tail]) [] := by
  have hwithin : Within q.config (sealed_ tail) := by
    obtain ⟨hmembers, hbytes, hlength⟩ := sealed_sums tail
    unfold Within
    rw [hmembers, hbytes, hlength]
    exact h.tailWithin
  refine ⟨?_, ?_, ?_, List.forall_mem_nil _, ?_, htail, fun hbad => absurd rfl hbad,
    fun hbad => absurd rfl hbad, ?_⟩
  · rw [hqueue, List.flatten_append, List.append_nil]
    simp
  · intro run hrun
    rcases List.mem_append.mp hrun with hrun | hrun
    · exact h.closed run hrun
    · rw [List.mem_singleton.mp hrun]
      exact sealed_closed hne h.open_
  · intro run hrun
    rw [hconfig]
    rcases List.mem_append.mp hrun with hrun | hrun
    · exact h.within run hrun
    · rw [List.mem_singleton.mp hrun]
      exact hwithin
  · intro hbad
    simp at hbad
  · intro c hc
    rcases hactive c hc with hc | ⟨rfl, hcaptures⟩
    · obtain ⟨run, rest, rfl, hcaptures⟩ := h.active c hc
      exact ⟨run, rest ++ [sealed_ tail], rfl, hcaptures⟩
    · exact ⟨sealed_ tail, [], rfl, hcaptures⟩

theorem force_shape (h : Shape q cohorts tail) (hids : (q.queue.map Node.id).Nodup) :
    ∃ cohorts', Shape q.force cohorts' [] := by
  have hforming := h.forming
  rcases List.eq_nil_or_concat' tail with rfl | ⟨init, last, rfl⟩
  · refine ⟨cohorts, ?_⟩
    unfold force
    rw [hforming]
    exact h
  · rw [List.getLast?_concat, Option.map_some] at hforming
    refine ⟨cohorts ++ [sealed_ (init ++ [last])], h.seal_tail (by simp) ?_ ?_ ?_ ?_⟩
    · unfold force
      rw [hforming]
      rw [h.queue] at hids ⊢
      exact map_sealNode_back hids
    · unfold force
      rw [hforming]
    · unfold force
      rw [hforming]
    · intro c hc
      rw [force_active] at hc
      exact .inl hc

/-- A mark that no shape reads. -/
theorem Shape.mapped (h : Shape q cohorts tail) {f : Node → Node} (hid : ∀ n, (f n).id = n.id)
    (hmembers : ∀ n, (f n).members = n.members) (hbytes : ∀ n, (f n).bytes = n.bytes)
    (hsealed : ∀ n, (f n).sealed_ = n.sealed_) (hboundary : ∀ n, (f n).boundary = n.boundary) :
    Shape { q with queue := q.queue.map f } (cohorts.map (List.map f)) (tail.map f) := by
  have hsums : ∀ run : List Node, (run.map f).map Node.members = run.map Node.members
      ∧ (run.map f).map Node.bytes = run.map Node.bytes ∧ (run.map f).map Node.id = run.map Node.id := by
    intro run
    refine ⟨?_, ?_, ?_⟩
    · rw [List.map_map]
      exact List.map_congr_left fun n _ => hmembers n
    · rw [List.map_map]
      exact List.map_congr_left fun n _ => hbytes n
    · rw [List.map_map]
      exact List.map_congr_left fun n _ => hid n
  have hwithin : ∀ run, Within q.config run → Within q.config (run.map f) := by
    intro run hrun hlong
    rw [List.length_map] at hlong
    rw [(hsums run).1, (hsums run).2.1]
    exact hrun hlong
  have hlast : ∀ (run : List Node) {β : Type} (g : Node → β), (∀ n, g (f n) = g n) →
      (run.map f).getLast?.map g = run.getLast?.map g := by
    intro run β g hg
    rw [List.getLast?_map, Option.map_map]
    exact congrArg (fun k => Option.map k run.getLast?) (funext hg)
  refine ⟨?_, ?_, ?_, ?_, hwithin tail h.tailWithin, ?_, ?_, ?_, ?_⟩
  · rw [h.queue, List.map_append, List.map_flatten]
  · intro run hrun
    obtain ⟨old, hold, rfl⟩ := List.mem_map.mp hrun
    obtain ⟨init, last, rfl, hlast, hinit⟩ := h.closed old hold
    refine ⟨init.map f, f last, by simp, (hsealed last).trans hlast, ?_⟩
    intro n hn
    obtain ⟨m, hm, rfl⟩ := List.mem_map.mp hn
    exact (hsealed m).trans (hinit m hm)
  · intro run hrun
    obtain ⟨old, hold, rfl⟩ := List.mem_map.mp hrun
    exact hwithin old (h.within old hold)
  · intro n hn
    obtain ⟨m, hm, rfl⟩ := List.mem_map.mp hn
    exact (hsealed m).trans (h.open_ m hm)
  · rw [hlast tail Node.id hid]
    exact h.forming
  · intro hne
    rw [(hsums tail).1]
    exact h.members fun hnil => hne (by rw [hnil]; rfl)
  · intro hne
    rw [(hsums tail).2.1]
    exact h.bytes fun hnil => hne (by rw [hnil]; rfl)
  · intro c hc
    obtain ⟨run, rest, rfl, hcaptures⟩ := h.active c hc
    refine ⟨run.map f, rest.map (List.map f), rfl, ?_⟩
    refine ⟨?_, ?_, ?_, ?_⟩
    · rw [(hsums run).2.2]
      exact hcaptures.nodes
    · rw [(hsums run).1]
      exact hcaptures.members
    · rw [(hsums run).2.1]
      exact hcaptures.bytes
    · rw [hlast run Node.boundary hboundary]
      exact hcaptures.boundary

/-- **A group joins the cohort that forms**, or begins one. -/
theorem Shape.push (h : Shape q cohorts tail) {n : Node} {deadline : Nat} (hopen : n.sealed_ = false)
    (hfits : tail ≠ [] → q.formingMembers + n.members ≤ q.config.targetMembers
      ∧ q.formingBytes + n.bytes ≤ q.config.targetBytes) :
    Shape ((q.begins deadline).push n) cohorts (tail ++ [n]) := by
  -- what the tail counts for, where one forms
  have hbegins : (q.begins deadline).formingMembers = (tail.map Node.members).sum
      ∧ (q.begins deadline).formingBytes = (tail.map Node.bytes).sum
      ∧ (q.begins deadline).queue = q.queue ∧ (q.begins deadline).config = q.config
      ∧ (q.begins deadline).active = q.active := by
    unfold begins
    rw [h.forming]
    rcases List.eq_nil_or_concat' tail with rfl | ⟨init, last, rfl⟩
    · exact ⟨rfl, rfl, rfl, rfl, rfl⟩
    · rw [List.getLast?_concat]
      exact ⟨h.members (by simp), h.bytes (by simp), rfl, rfl, rfl⟩
  obtain ⟨hmembers, hbytes, hqueue, hconfig, hactive⟩ := hbegins
  refine ⟨?_, h.closed, ?_, ?_, ?_, ?_, ?_, ?_, ?_⟩
  · unfold Commit.push
    rw [hqueue, h.queue, List.append_assoc]
  · intro run hrun
    change Within (q.begins deadline).config run
    rw [hconfig]
    exact h.within run hrun
  · intro m hm
    rcases List.mem_append.mp hm with hm | hm
    · exact h.open_ m hm
    · rw [List.mem_singleton.mp hm]
      exact hopen
  · intro hlong
    have hne : tail ≠ [] := by
      rintro rfl
      simp at hlong
    obtain ⟨hfitsMembers, hfitsBytes⟩ := hfits hne
    rw [h.members hne] at hfitsMembers
    rw [h.bytes hne] at hfitsBytes
    change _ ≤ (q.begins deadline).config.targetMembers ∧ _ ≤ (q.begins deadline).config.targetBytes
    rw [hconfig]
    simp only [List.map_append, List.sum_append, List.map_cons, List.map_nil, List.sum_cons,
      List.sum_nil, Nat.add_zero]
    exact ⟨hfitsMembers, hfitsBytes⟩
  · rw [List.getLast?_concat]
    rfl
  · intro _
    simp only [Commit.push, hmembers, List.map_append, List.sum_append, List.map_cons, List.map_nil,
      List.sum_cons, List.sum_nil, Nat.add_zero]
  · intro _
    simp only [Commit.push, hbytes, List.map_append, List.sum_append, List.map_cons, List.map_nil,
      List.sum_cons, List.sum_nil, Nat.add_zero]
  · intro c hc
    replace hc : (q.begins deadline).active = some c := hc
    rw [hactive] at hc
    exact h.active c hc

end Shapes

/-! ## What each operation keeps -/

section Operations

variable {q q' : Commit}

theorem Kept.nodup (h : Kept q) : (q.queue.map Node.id).Nodup := by
  rw [h.ids]
  exact List.nodup_range'

/-- Nothing but the marks of the queue, and what is no part of the ledger, has changed. -/
theorem Kept.marked (h : Kept q) (hshape : ∃ cohorts tail, Shape q' cohorts tail)
    (hids : q'.queue.map Node.id = q.queue.map Node.id) (hsettled : q'.settled = q.settled)
    (hcaptures : q'.captures = q.captures) (hactive : q'.active = q.active)
    (hconfig : q'.config = q.config) (hbarriers : q'.barriers = q.barriers)
    (hfired : q'.fired = q.fired) : Kept q' := by
  have hlength : q'.queue.length = q.queue.length := by
    have hmap := congrArg List.length hids
    rwa [List.length_map, List.length_map] at hmap
  refine ⟨hshape, ?_, ?_, ?_, ?_, ?_, ?_, ?_, hfired.trans h.fired⟩
  · rw [hids, hsettled, hlength]
    exact h.ids
  · rw [hsettled]
    exact h.settled
  · rw [hcaptures, hsettled]
    unfold activeGroups
    rw [hactive]
    exact h.captured
  · rw [hcaptures, hconfig]
    exact h.bounded
  · rw [hactive, hcaptures]
    exact h.active
  · rw [hsettled, hcaptures]
    exact h.cuts
  · rw [hsettled, hbarriers]
    exact h.receipts

/-- What has changed is no part of the ledger. -/
theorem Kept.congr (h : Kept q) (hqueue : q'.queue = q.queue)
    (htail : q'.formingTail = q.formingTail) (hmembers : q'.formingMembers = q.formingMembers)
    (hbytes : q'.formingBytes = q.formingBytes) (hsettled : q'.settled = q.settled)
    (hcaptures : q'.captures = q.captures) (hactive : q'.active = q.active)
    (hconfig : q'.config = q.config) (hbarriers : q'.barriers = q.barriers)
    (hfired : q'.fired = q.fired) : Kept q' := by
  obtain ⟨cohorts, tail, hshape⟩ := h.shape
  refine h.marked ⟨cohorts, tail, ?_⟩ (by rw [hqueue]) hsettled hcaptures hactive hconfig hbarriers hfired
  exact hshape.congr hqueue hconfig htail hmembers hbytes hactive

theorem kept_force (h : Kept q) : Kept q.force := by
  obtain ⟨cohorts, tail, hshape⟩ := h.shape
  obtain ⟨cohorts', hshape'⟩ := force_shape hshape h.nodup
  have hids : q.force.queue.map Node.id = q.queue.map Node.id := by
    unfold force
    split
    · rfl
    · rw [List.map_map]
      exact List.map_congr_left fun n _ => sealNode_id
  have hframe : q.force.settled = q.settled ∧ q.force.captures = q.captures
      ∧ q.force.config = q.config ∧ q.force.barriers = q.barriers ∧ q.force.fired = q.fired := by
    unfold force
    split
    · exact ⟨rfl, rfl, rfl, rfl, rfl⟩
    · exact ⟨rfl, rfl, rfl, rfl, rfl⟩
  obtain ⟨hsettled, hcaptures, hconfig, hbarriers, hfired⟩ := hframe
  exact h.marked ⟨cohorts', [], hshape'⟩ hids hsettled hcaptures force_active hconfig hbarriers hfired

theorem kept_requestStop (h : Kept q) : Kept q.requestStop := by
  have hstop : Kept { q with stopped := true } := h.congr rfl rfl rfl rfl rfl rfl rfl rfl rfl rfl
  exact kept_force hstop

theorem kept_coordinatorFails (h : Kept q) (why : Fault) : Kept (q.coordinatorFails why) := by
  have hobserved : Kept { q with
      coordinatorFailure := q.coordinatorFailure.or (some why), first := q.first.or (some why) } :=
    h.congr rfl rfl rfl rfl rfl rfl rfl rfl rfl rfl
  exact kept_requestStop hobserved

theorem kept_remember (h : Kept q) (failure : Option Fault) : Kept (q.remember failure) := by
  cases failure with
  | none => exact h
  | some why =>
    have hobserved : Kept { q with
        storageFailure := q.storageFailure.or (some why), first := q.first.or (some why) } :=
      h.congr rfl rfl rfl rfl rfl rfl rfl rfl rfl rfl
    exact kept_requestStop hobserved

theorem kept_join (h : Kept q) (id : Nat) (failure : Option Fault) : Kept (q.join id failure) := by
  obtain ⟨cohorts, tail, hshape⟩ := h.shape
  have hjoined : Kept { q with queue := q.queue.map (joinNode id) } := by
    refine h.marked ⟨_, _, hshape.mapped (fun n => joinNode_id) (fun n => joinNode_members)
      (fun n => joinNode_bytes) (fun n => joinNode_sealed) fun n => joinNode_boundary⟩
      ?_ rfl rfl rfl rfl rfl rfl
    rw [List.map_map]
    exact List.map_congr_left fun n _ => joinNode_id
  exact kept_remember hjoined failure

/-- **A group is installed** at the back of the queue. -/
theorem kept_install (h : Kept q) (p : Pending) (s : Submission) (now : Nat) :
    Kept (q.install p s now) := by
  have hpush : ∀ q₁ : Commit, Kept q₁ → q₁.settled = q.settled → q₁.queue.length = q.queue.length →
      (q₁.formingTail.isSome = true →
        q₁.formingMembers + p.members ≤ q₁.config.targetMembers
          ∧ q₁.formingBytes + (s.end_ - s.begin_) ≤ q₁.config.targetBytes) →
      Kept ((q₁.begins p.deadline).push {
        id := q.settled.length + q.queue.length, members := p.members, bytes := s.end_ - s.begin_,
        deadline := p.deadline, boundary := s.boundary }) := by
    intro q₁ h₁ hsettled hlength hfits
    obtain ⟨cohorts, tail, hshape⟩ := h₁.shape
    have hfits' : tail ≠ [] → q₁.formingMembers + p.members ≤ q₁.config.targetMembers
        ∧ q₁.formingBytes + (s.end_ - s.begin_) ≤ q₁.config.targetBytes := by
      intro hne
      refine hfits ?_
      rw [hshape.forming, Option.isSome_map]
      obtain ⟨init, last, rfl⟩ := (List.eq_nil_or_concat' tail).resolve_left hne
      rw [List.getLast?_concat]
      rfl
    have hbegins : (q₁.begins p.deadline).queue = q₁.queue
        ∧ (q₁.begins p.deadline).settled = q₁.settled ∧ (q₁.begins p.deadline).captures = q₁.captures
        ∧ (q₁.begins p.deadline).active = q₁.active ∧ (q₁.begins p.deadline).config = q₁.config
        ∧ (q₁.begins p.deadline).barriers = q₁.barriers
        ∧ (q₁.begins p.deadline).fired = q₁.fired := by
      unfold begins
      split
      · exact ⟨rfl, rfl, rfl, rfl, rfl, rfl, rfl⟩
      · exact ⟨rfl, rfl, rfl, rfl, rfl, rfl, rfl⟩
    obtain ⟨hqueue, hsettled', hcaptures, hactive, hconfig, hbarriers, hfired⟩ := hbegins
    refine ⟨⟨cohorts, _, hshape.push rfl hfits'⟩, ?_, ?_, ?_, ?_, ?_, ?_, ?_, ?_⟩
    · simp only [Commit.push, hqueue, hsettled', List.map_append, List.map_cons, List.map_nil,
        List.length_append, List.length_cons, List.length_nil, Nat.zero_add]
      rw [h₁.ids, List.range'_1_concat, hlength, hsettled]
    · simp only [Commit.push, hsettled']
      exact h₁.settled
    · simp only [Commit.push, activeGroups, hcaptures, hsettled', hactive]
      exact h₁.captured
    · simp only [Commit.push, hcaptures, hconfig]
      exact h₁.bounded
    · simp only [Commit.push, hactive, hcaptures]
      exact h₁.active
    · simp only [Commit.push, hsettled', hcaptures]
      exact h₁.cuts
    · simp only [Commit.push, hsettled', hbarriers]
      exact h₁.receipts
    · simp only [Commit.push, hfired]
      exact h₁.fired
  have hlast : ∀ q₂ : Commit, Kept q₂ → Kept (if q₂.full then q₂.force else q₂) := by
    intro q₂ h₂
    split
    · exact kept_force h₂
    · exact h₂
  unfold install
  refine hlast _ ?_
  split
  next =>
    refine hpush q.force (kept_force h) ?_ force_length ?_
    · unfold force
      split
      · rfl
      · rfl
    · intro hbad
      have hnone : q.force.formingTail = none := by
        unfold force
        split
        next hnone => exact hnone
        next => rfl
      rw [hnone] at hbad
      cases hbad
  next hsplits =>
    refine hpush q h rfl rfl ?_
    intro hforming
    simp only [splits, decide_eq_true_eq, not_and, not_or, Nat.not_lt] at hsplits
    obtain ⟨hmembers, hbytes, _⟩ := hsplits hforming
    exact ⟨hmembers, hbytes⟩

theorem install_frame (q : Commit) (p : Pending) (s : Submission) (now : Nat) :
    (q.install p s now).flags = q.flags ∧ (q.install p s now).active = q.active
      ∧ (q.install p s now).barriers = q.barriers
      ∧ (q.install p s now).queue.length = q.queue.length + 1 := by
  have hpush : ∀ (q₁ : Commit) (n : Node), Same q q₁ →
      ((q₁.begins p.deadline).push n).flags = q.flags
        ∧ ((q₁.begins p.deadline).push n).active = q.active
        ∧ ((q₁.begins p.deadline).push n).barriers = q.barriers
        ∧ ((q₁.begins p.deadline).push n).queue.length = q.queue.length + 1 := by
    intro q₁ n hsame
    rw [← hsame.flags, ← hsame.active, ← hsame.barriers, ← hsame.length]
    unfold begins Commit.push
    split
    · exact ⟨rfl, rfl, rfl, List.length_append ..⟩
    · exact ⟨rfl, rfl, rfl, List.length_append ..⟩
  have hlast : ∀ q₂ : Commit, q₂.flags = q.flags ∧ q₂.active = q.active ∧ q₂.barriers = q.barriers
      ∧ q₂.queue.length = q.queue.length + 1 →
      (if q₂.full then q₂.force else q₂).flags = q.flags
        ∧ (if q₂.full then q₂.force else q₂).active = q.active
        ∧ (if q₂.full then q₂.force else q₂).barriers = q.barriers
        ∧ (if q₂.full then q₂.force else q₂).queue.length = q.queue.length + 1 := by
    rintro q₂ ⟨hflags, hactive, hbarriers, hlength⟩
    have hforce := @same_force q₂
    split
    · exact ⟨hforce.flags.trans hflags, hforce.active.trans hactive, hforce.barriers.trans hbarriers,
        hforce.length.trans hlength⟩
    · exact ⟨hflags, hactive, hbarriers, hlength⟩
  unfold install
  refine hlast _ (hpush _ _ ?_)
  split
  · exact same_force
  · exact Same.refl

/-- What `capture` does: what is active, nothing, or the cohort at the front. -/
theorem capture_cases (q : Commit) (now : Nat) :
    (∃ c, q.active = some c ∧ q.capture now = (some c, q))
      ∨ (q.active = none ∧ q.capture now = (none, q))
      ∨ (q.active = none ∧ ∃ last, (cohort q.queue).getLast? = some last
        ∧ q.capture now = (some (captureOf (cohort q.queue) last), { q with
            queue := q.queue.map (sealNode last.id)
            formingTail := if q.formingTail = some last.id then none else q.formingTail
            active := some (captureOf (cohort q.queue) last)
            captures := q.captures ++ [captureOf (cohort q.queue) last] })) := by
  unfold capture
  cases hactive : q.active with
  | some c => exact .inl ⟨c, rfl, rfl⟩
  | none =>
    cases hlast : (cohort q.queue).getLast? with
    | none => exact .inr (.inl ⟨rfl, rfl⟩)
    | some last =>
      dsimp only
      split
      next => exact .inr (.inl ⟨rfl, rfl⟩)
      next => exact .inr (.inr ⟨rfl, last, rfl, rfl⟩)

/-- The front of the queue as its cohorts have it. -/
theorem Shape.front {cohorts : List (List Node)} {tail : List Node} (h : Shape q cohorts tail)
    (hids : (q.queue.map Node.id).Nodup) {last : Node}
    (hlast : (cohort q.queue).getLast? = some last) {q' : Commit}
    (hqueue : q'.queue = q.queue.map (sealNode last.id)) (hconfig : q'.config = q.config)
    (htail : q'.formingTail = if q.formingTail = some last.id then none else q.formingTail)
    (hmembers : q'.formingMembers = q.formingMembers) (hbytes : q'.formingBytes = q.formingBytes)
    (hactive : q'.active = some (captureOf (cohort q.queue) last)) :
    ∃ run rest tail', Shape q' (run :: rest) tail' ∧ Captures (captureOf (cohort q.queue) last) run
      ∧ Within q.config run ∧ run.length ≤ q.queue.length
      ∧ run.map Node.id = (q.queue.map Node.id).take run.length := by
  cases cohorts with
  | nil =>
    have hall : q.queue = tail := by
      rw [h.queue]
      rfl
    have hcohort : cohort q.queue = tail := by
      rw [hall]
      exact cohort_open h.open_
    rw [hcohort] at hlast hactive ⊢
    obtain ⟨init, rfl⟩ : ∃ init, tail = init ++ [last] := List.getLast?_eq_some_iff.mp hlast
    have hcaptures : Captures (captureOf (init ++ [last]) last) (sealed_ (init ++ [last])) := by
      rw [sealed_concat]
      refine ⟨?_, ?_, ?_, ?_⟩
      · simp [captureOf]
      · simp [captureOf]
      · simp [captureOf]
      · rw [List.getLast?_concat]
        rfl
    have hshape : Shape q' ([] ++ [sealed_ (init ++ [last])]) [] := by
      refine h.seal_tail (by simp) ?_ hconfig ?_ ?_
      · rw [hqueue, hall]
        rw [hall] at hids
        exact @map_sealNode_back [] init last hids
      · rw [htail, h.forming, List.getLast?_concat]
        exact if_pos rfl
      · intro c hc
        rw [hactive] at hc
        exact .inr ⟨rfl, Option.some.inj hc ▸ hcaptures⟩
    refine ⟨sealed_ (init ++ [last]), [], [], hshape, hcaptures, ?_, ?_, ?_⟩
    · obtain ⟨hsumMembers, hsumBytes, hlength⟩ := sealed_sums (init ++ [last])
      unfold Within
      rw [hsumMembers, hsumBytes, hlength]
      exact h.tailWithin
    · rw [(sealed_sums _).2.2, hall]
    · rw [(sealed_sums _).2.2, hall, List.take_of_length_le (by simp), sealed_concat]
      simp
  | cons run rest =>
    have hclosed := h.closed run List.mem_cons_self
    have hsplit : q.queue = run ++ (rest.flatten ++ tail) := by
      rw [h.queue, List.flatten_cons, List.append_assoc]
    have hcohort : cohort q.queue = run := by
      rw [hsplit]
      exact cohort_closed hclosed
    rw [hcohort] at hlast hactive ⊢
    obtain ⟨last', hlast', hsealed⟩ := hclosed.getLast
    obtain rfl : last = last' := Option.some.inj (hlast.symm.trans hlast')
    have hmem : last ∈ q.queue := by
      rw [hsplit]
      exact List.mem_append_left _ (List.mem_of_getLast? hlast)
    have hsame : ∀ n ∈ q.queue, n.id = last.id → n = last :=
      fun n hn heq => List.inj_on_of_nodup_map hids hn hmem heq
    have hunchanged : q'.queue = q.queue := by
      rw [hqueue, List.map_congr_left (g := id) fun n hn => ?_, List.map_id]
      by_cases heq : n.id = last.id
      · rw [hsame n hn heq, sealNode_self]
        cases last
        cases hsealed
        rfl
      · exact sealNode_other heq
    have htail' : q'.formingTail = q.formingTail := by
      rw [htail]
      refine if_neg ?_
      intro heq
      rw [h.forming, Option.map_eq_some_iff] at heq
      obtain ⟨n, hn, hid⟩ := heq
      have hin : n ∈ tail := List.mem_of_getLast? hn
      have hopen := h.open_ n hin
      rw [hsame n (by rw [h.queue]; exact List.mem_append_right _ hin) hid, hsealed] at hopen
      cases hopen
    have hcaptures := captureOf_captures hlast
    refine ⟨run, rest, tail, ⟨hunchanged.trans h.queue, h.closed, ?_, h.open_, ?_,
      htail'.trans h.forming, ?_, ?_, ?_⟩, hcaptures, h.within run List.mem_cons_self, ?_, ?_⟩
    · rw [hconfig]
      exact h.within
    · rw [hconfig]
      exact h.tailWithin
    · rw [hmembers]
      exact h.members
    · rw [hbytes]
      exact h.bytes
    · intro c hc
      rw [hactive] at hc
      exact ⟨run, rest, rfl, Option.some.inj hc ▸ hcaptures⟩
    · rw [hsplit, List.length_append]
      exact Nat.le_add_right _ _
    · rw [hsplit, List.map_append, ← List.length_map Node.id, List.take_left]

/-- **A capture** is the cohort at the front, and begins where the one before it ended. -/
theorem kept_capture (h : Kept q) (hshort : q.queue.length ≤ maximumWalCohortGroups) (now : Nat) :
    Kept (q.capture now).2 := by
  rcases capture_cases q now with ⟨c, _, heq⟩ | ⟨_, heq⟩ | ⟨hnone, last, hlast, heq⟩
  · rw [heq]
    exact h
  · rw [heq]
    exact h
  · rw [heq]
    obtain ⟨cohorts, tail, hshape⟩ := h.shape
    obtain ⟨run, rest, tail', hshape', hcaptures, hwithin, hlength, hnodes⟩ :=
      @Shape.front q cohorts tail hshape h.nodup last hlast { q with
        queue := q.queue.map (sealNode last.id)
        formingTail := if q.formingTail = some last.id then none else q.formingTail
        active := some (captureOf (cohort q.queue) last)
        captures := q.captures ++ [captureOf (cohort q.queue) last] } rfl rfl rfl rfl rfl rfl
    have hgroups : q.activeGroups = 0 := by
      unfold activeGroups
      rw [hnone]
      rfl
    refine ⟨⟨run :: rest, tail', hshape'⟩, ?_, h.settled, ?_, ?_, ?_, ?_, h.receipts, h.fired⟩
    · dsimp only
      rw [List.length_map, ← h.ids, List.map_map]
      exact List.map_congr_left fun n _ => sealNode_id
    · have hall := h.captured
      rw [hgroups, Nat.add_zero] at hall
      have hrun : (captureOf (cohort q.queue) last).nodes = List.range' q.settled.length run.length := by
        rw [hcaptures.nodes, hnodes, h.ids, List.take_range'_of_length_ge hlength]
      change (q.captures ++ [_]).flatMap Capture.nodes = List.range (q.settled.length + _)
      rw [List.flatMap_append, hall, List.flatMap_singleton, hrun]
      change _ = List.range (q.settled.length + (captureOf (cohort q.queue) last).nodes.length)
      rw [hrun, List.length_range', List.range_eq_range', List.range_eq_range']
      have happend := @List.range'_append_1 0 q.settled.length run.length
      rw [Nat.zero_add] at happend
      exact happend
    · intro c hc
      rcases List.mem_append.mp hc with hc | hc
      · exact h.bounded c hc
      · rw [List.mem_singleton.mp hc]
        refine ⟨hcaptures.ne_nil, ?_, ?_⟩
        · rw [hcaptures.length]
          exact hlength.trans hshort
        · rw [hcaptures.length, hcaptures.members, hcaptures.bytes]
          exact hwithin
    · intro c hc
      rw [← Option.some.inj hc]
      exact List.mem_append_right _ (List.mem_singleton.mpr rfl)
    · intro r hr
      obtain ⟨c, hc, hnode⟩ := h.cuts r hr
      exact ⟨c, List.mem_append_left _ hc, hnode⟩

/-- What a capture leaves alone, and that it is active. -/
theorem capture_frame (q : Commit) (now : Nat) : (q.capture now).2.flags = q.flags
    ∧ (q.capture now).2.barriers = q.barriers ∧ (q.capture now).2.queue.length = q.queue.length
    ∧ (∀ c, q.active = some c → (q.capture now).2.active = some c)
    ∧ (∀ c, (q.capture now).1 = some c → (q.capture now).2.active = some c)
    ∧ ((q.capture now).1 = none → (q.capture now).2 = q) := by
  rcases capture_cases q now with ⟨c, hactive, heq⟩ | ⟨hnone, heq⟩ | ⟨hnone, last, hlast, heq⟩
  · rw [heq]
    exact ⟨rfl, rfl, rfl, fun _ h => h, fun d hd => hd ▸ hactive, fun _ => rfl⟩
  · rw [heq]
    refine ⟨rfl, rfl, rfl, fun _ h => h, ?_, fun _ => rfl⟩
    intro c hbad
    cases hbad
  · rw [heq]
    refine ⟨rfl, rfl, List.length_map .., ?_, fun _ h => h, ?_⟩
    · intro c hbad
      rw [hnone] at hbad
      cases hbad
    · exact nofun

/-- **A forced owner captures while its queue is not empty.** -/
theorem forced_captures (h : Kept q) (hne : q.queue ≠ []) (now : Nat) :
    (q.force.capture now).1.isSome = true := by
  obtain ⟨cohorts, tail, hshape⟩ := h.shape
  obtain ⟨closed, hforced⟩ := force_shape hshape h.nodup
  have hqueue : q.force.queue = closed.flatten := by
    rw [hforced.queue, List.append_nil]
  unfold capture
  cases hactive : q.force.active with
  | some c => rfl
  | none =>
    cases closed with
    | nil =>
      have hlength : q.force.queue.length = q.queue.length := force_length
      rw [hqueue] at hlength
      exact absurd (List.length_eq_zero_iff.mp hlength.symm) hne
    | cons run rest =>
      have hclosed := hforced.closed run List.mem_cons_self
      obtain ⟨last, hlast, hsealed⟩ := hclosed.getLast
      have hcohort : cohort q.force.queue = run := by
        rw [hqueue, List.flatten_cons]
        exact cohort_closed hclosed
      simp only [hcohort, hlast, hsealed, Bool.true_eq_false, false_and, if_false, Option.isSome_some]

variable {c : Capture}

/-- The tickets of the active capture are those that come next, and the others come after them. -/
theorem Kept.active_ids (h : Kept q) (hactive : q.active = some c) :
    c.nodes = List.range' q.settled.length c.nodes.length
      ∧ (q.queue.drop c.nodes.length).map Node.id
        = List.range' (q.settled.length + c.nodes.length) (q.queue.drop c.nodes.length).length := by
  obtain ⟨cohorts, tail, hshape⟩ := h.shape
  obtain ⟨run, rest, rfl, hcaptures⟩ := hshape.active c hactive
  have hsplit : q.queue = run ++ (rest.flatten ++ tail) := by
    rw [hshape.queue, List.flatten_cons, List.append_assoc]
  have hids := h.ids
  rw [hsplit, List.map_append, List.length_append, ← List.range'_append_1] at hids
  obtain ⟨hrun, hrest⟩ := List.append_inj hids (by rw [List.length_map, List.length_range'])
  rw [hcaptures.length, hsplit, List.drop_left]
  exact ⟨hcaptures.nodes.trans hrun, hrest⟩

/-- **The tickets of the active capture are settled**, and no others. -/
theorem Kept.settle (h : Kept q) (hactive : q.active = some c) {results : List Settled}
    (hnodes : results.map Settled.node = c.nodes) (hcuts : ∀ r ∈ results, r.cut = c.boundary)
    (hreceipts : ∀ r ∈ results, ∀ b, r.outcome.receipt = some b → r.outcome.failure = none ∧ b = r.cut ∧ (r.cut, some b) ∈ q.barriers)
    (hsettled : q'.settled = q.settled ++ results) (hqueue : q'.queue = q.queue.drop c.nodes.length)
    (hnone : q'.active = none) (hcaptures : q'.captures = q.captures) (hconfig : q'.config = q.config)
    (htail : q'.formingTail = q.formingTail) (hmembers : q'.formingMembers = q.formingMembers)
    (hbytes : q'.formingBytes = q.formingBytes) (hbarriers : q'.barriers = q.barriers)
    (hfired : q'.fired = q.fired) : Kept q' := by
  obtain ⟨hfirst, hrest⟩ := h.active_ids hactive
  obtain ⟨cohorts, tail, hshape⟩ := h.shape
  obtain ⟨run, rest, rfl, hrun⟩ := hshape.active c hactive
  have hlength : results.length = c.nodes.length := by
    rw [← hnodes, List.length_map]
  have hgroups : q.activeGroups = c.nodes.length := by
    unfold activeGroups
    rw [hactive]
    rfl
  have hleft : q'.queue = rest.flatten ++ tail := by
    rw [hqueue, hrun.length, hshape.queue, List.flatten_cons, List.append_assoc, List.drop_left]
  refine ⟨⟨rest, tail, hleft, fun r hr => hshape.closed r (List.mem_cons_of_mem _ hr), ?_, hshape.open_,
    ?_, htail.trans hshape.forming, ?_, ?_, ?_⟩, ?_, ?_, ?_, ?_, ?_, ?_, ?_, hfired.trans h.fired⟩
  · intro r hr
    rw [hconfig]
    exact hshape.within r (List.mem_cons_of_mem _ hr)
  · rw [hconfig]
    exact hshape.tailWithin
  · rw [hmembers]
    exact hshape.members
  · rw [hbytes]
    exact hshape.bytes
  · intro d hd
    rw [hnone] at hd
    cases hd
  · rw [hqueue, hsettled, List.length_append, hlength]
    exact hrest
  · rw [hsettled, List.map_append, hnodes, List.length_append, hlength, h.settled, hfirst,
      List.length_range', List.range_eq_range', List.range_eq_range']
    have happend := @List.range'_append_1 0 q.settled.length c.nodes.length
    rw [Nat.zero_add] at happend
    exact happend
  · have hall := h.captured
    rw [hgroups] at hall
    have hnothing : q'.activeGroups = 0 := by
      unfold activeGroups
      rw [hnone]
      rfl
    rw [hcaptures, hsettled, List.length_append, hlength, hnothing]
    exact hall
  · rw [hcaptures, hconfig]
    exact h.bounded
  · intro d hd
    rw [hnone] at hd
    cases hd
  · intro r hr
    rw [hcaptures]
    rw [hsettled] at hr
    rcases List.mem_append.mp hr with hr | hr
    · exact h.cuts r hr
    · refine ⟨c, h.active c hactive, ?_, hcuts r hr⟩
      rw [← hnodes]
      exact List.mem_map_of_mem hr
  · intro r hr
    rw [hsettled] at hr
    rw [hbarriers]
    rcases List.mem_append.mp hr with hr | hr
    · exact h.receipts r hr
    · exact hreceipts r hr

/-- No ticket of the active capture was settled before. -/
theorem Kept.unsettled (h : Kept q) (hactive : q.active = some c) {id : Nat} (hid : id ∈ c.nodes)
    : q.isSettled id = false := by
  obtain ⟨hfirst, _⟩ := h.active_ids hactive
  rw [hfirst, List.mem_range'_1] at hid
  unfold isSettled
  rw [List.any_eq_false]
  intro r hr hbad
  have hin : r.node ∈ q.settled.map Settled.node := List.mem_map_of_mem hr
  rw [h.settled, List.mem_range] at hin
  rw [decide_eq_true_eq] at hbad
  rw [hbad] at hin
  exact absurd hin (Nat.not_lt.mpr hid.1)

theorem assert_true {condition : Bool} {what : Assertion} (h : condition = true) :
    q.assert condition what = q := by
  unfold assert
  rw [if_pos h]

/-- **A flush ends**: neither of its assertions fails. -/
theorem kept_finishFlush (h : Kept q) (hactive : q.active = some c) (hflushing : q.flushing = true)
    (hjoining : q.joining = true) (hjoined : q.unjoined c = none) {outcome : BarrierOutcome}
    (hreceipt : ∀ b, outcome.receipt = some b → outcome.failure = none ∧ b = c.boundary ∧ (c.boundary, some b) ∈ q.barriers)
    :
    Kept (q.finishFlush c outcome) := by
  have hcaptured : decide (q.isActive c = true ∧ q.flushing = true ∧ q.joining = true) = true := by
    simp [isActive, hactive, hflushing, hjoining]
  have honce : (c.nodes.all fun id => decide (q.isJoined id = true ∧ q.isSettled id = false)) = true := by
    rw [List.all_eq_true]
    intro id hid
    have hthis := List.find?_eq_none.mp hjoined id hid
    rw [decide_eq_true_eq, Bool.not_eq_false] at hthis
    rw [decide_eq_true_eq]
    exact ⟨hthis, h.unsettled hactive hid⟩
  have hfinished : q.finishFlush c outcome = { q with
      settled := q.settled ++ c.nodes.map fun id => ⟨id, c.boundary, outcome⟩
      queue := q.queue.drop c.nodes.length
      active := none
      flushing := false
      joining := false } := by
    unfold finishFlush
    rw [assert_true hcaptured]
    dsimp only
    rw [assert_true honce]
  rw [hfinished]
  refine h.settle hactive ?_ ?_ ?_ rfl rfl rfl rfl rfl rfl rfl rfl rfl rfl
  · rw [List.map_map]
    exact List.map_id c.nodes
  · intro r hr
    obtain ⟨id, _, rfl⟩ := List.mem_map.mp hr
    rfl
  · intro r hr
    obtain ⟨id, _, rfl⟩ := List.mem_map.mp hr
    exact hreceipt

theorem finishFlush_frame (q : Commit) (c : Capture) (outcome : BarrierOutcome) :
    (q.finishFlush c outcome).flags = { q.flags with flushing := false, joining := false }
      ∧ (q.finishFlush c outcome).queue = q.queue.drop c.nodes.length := by
  have hassert : ∀ (q : Commit) (condition : Bool) (what : Assertion),
      (q.assert condition what).flags = q.flags ∧ (q.assert condition what).queue = q.queue := by
    intro q condition what
    unfold assert
    split
    · exact ⟨rfl, rfl⟩
    · exact ⟨rfl, rfl⟩
  obtain ⟨hflags, hqueue⟩ := hassert q
    (decide (q.isActive c = true ∧ q.flushing = true ∧ q.joining = true)) .flushCapture
  obtain ⟨hflags', hqueue'⟩ := hassert (q.assert
    (decide (q.isActive c = true ∧ q.flushing = true ∧ q.joining = true)) .flushCapture)
    (c.nodes.all fun id => decide ((q.assert
      (decide (q.isActive c = true ∧ q.flushing = true ∧ q.joining = true)) .flushCapture).isJoined id
      = true ∧ (q.assert (decide (q.isActive c = true ∧ q.flushing = true ∧ q.joining = true))
      .flushCapture).isSettled id = false)) .resultOnce
  have hall := hflags'.trans hflags
  simp only [flags, Flags.mk.injEq] at hall
  obtain ⟨hconfig, hslots, hrotating, hsubmitting, hwaiting, _, _, hservice, hclosing, hclosed⟩ := hall
  refine ⟨?_, ?_⟩
  · simp only [finishFlush, flags, hconfig, hslots, hrotating, hsubmitting, hwaiting, hservice, hclosing,
      hclosed]
  · simp only [finishFlush]
    rw [hqueue'.trans hqueue]

theorem force_isJoined (id : Nat) : q.force.isJoined id = q.isJoined id := by
  unfold force
  split
  · rfl
  · unfold isJoined
    rw [List.any_map]
    congr 1
    funext n
    simp only [Function.comp, sealNode_id, sealNode_joined]

theorem coordinatorFails_unjoined (why : Fault) (c : Capture) :
    (q.coordinatorFails why).unjoined c = q.unjoined c := by
  unfold unjoined coordinatorFails requestStop
  congr 1
  funext id
  rw [force_isJoined]
  rfl

/-- What `flush_owned` certifies. -/
theorem kept_certify (h : Kept q) (hactive : q.active = some c) (hflushing : q.flushing = true)
    (hjoining : q.joining = true) (hjoined : q.unjoined c = none) {outcome : BarrierOutcome}
    (hreceipt : ∀ b, outcome.receipt = some b → (c.boundary, some b) ∈ q.barriers) :
    Kept (q.certify c outcome) := by
  unfold certify
  split
  next hwrong =>
    have hsame := same_coordinatorFails (q := q) (.error .wrongContext)
    have hflags := hsame.flags
    simp only [flags, Flags.mk.injEq] at hflags
    refine kept_finishFlush (kept_coordinatorFails h _) (hsame.active.trans hactive)
      (hflags.2.2.2.2.2.2.1.trans hflushing) (hflags.2.2.2.2.2.1.trans hjoining)
      ((coordinatorFails_unjoined _ c).trans hjoined) ?_
    intro b hb
    -- a failure was observed, so there is no receipt
    have hfailed : (q.coordinatorFails (.error .wrongContext)).first.isSome = true := by
      unfold coordinatorFails requestStop force
      split
      · simp
      · simp
    rw [hfailed] at hb
    cases hb
  next hright =>
    refine kept_finishFlush h hactive hflushing hjoining hjoined ?_
    intro b hb
    dsimp only at hb
    split at hb
    next => cases hb
    next hnone =>
      rw [Bool.not_eq_true, Option.isSome_eq_false_iff, Option.isNone_iff_eq_none] at hnone
      have hboundary : outcome.receipt = some c.boundary := by
        by_contra hbad
        exact hright ⟨hnone, hbad⟩
      obtain rfl : c.boundary = b := Option.some.inj (hboundary.symm.trans hb)
      exact ⟨hnone, rfl, hreceipt _ hb⟩

/-- A capture that is active is of groups in the queue. -/
theorem Kept.groups (h : Kept q) (hactive : q.active = some c) :
    c.nodes.length ≤ q.queue.length := by
  obtain ⟨cohorts, tail, hshape⟩ := h.shape
  obtain ⟨run, rest, rfl, hrun⟩ := hshape.active c hactive
  rw [hshape.queue, hrun.length, List.flatten_cons, List.append_assoc, List.length_append]
  exact Nat.le_add_right _ _

/-- A capture is given up, past its joins. -/
theorem kept_retireWritten (h : Kept q) (hactive : q.active = some c) :
    Kept (q.retireWritten c) := by
  have hall : (c.nodes.filter fun id => decide (q.isSettled id = false)) = c.nodes := by
    rw [List.filter_eq_self]
    intro id hid
    rw [decide_eq_true_eq]
    exact h.unsettled hactive hid
  unfold retireWritten
  rw [hall]
  refine h.settle hactive ?_ ?_ ?_ rfl rfl rfl rfl rfl rfl rfl rfl rfl rfl
  · rw [List.map_map]
    exact List.map_id c.nodes
  · intro r hr
    obtain ⟨id, _, rfl⟩ := List.mem_map.mp hr
    rfl
  · intro r hr b hb
    obtain ⟨id, _, rfl⟩ := List.mem_map.mp hr
    cases hb

end Operations

end Commit

end KwaqueStorage.GroupCommit
