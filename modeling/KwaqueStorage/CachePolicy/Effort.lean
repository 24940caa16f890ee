import KwaqueStorage.CachePolicy.Run

/-!
# What a request costs, and that requests make room

A request shares one effort among its calls. Each kind of work that frees nothing is counted in it and stops
at so many for every value freed so far and one more, so the whole request is bounded by what it freed.

That requests make room is another matter, as a call may free nothing and still not be in vain: a further turn
takes away a use, and a promotion those an entry had in the small queue. What entries have left of these, and
one or two for being in a queue, falls with every event as long as nobody refuses.
-/

namespace KwaqueStorage.CachePolicy

open Lib Relation
open PageCache (Hook Location Queue Effort)

variable {ι : Type} [DecidableEq ι]

/-- A promotion or a refusal in the small queue. -/
def Event.passesSmall : Event ι → Bool
  | .promoted _ => true
  | .asked _ .small _ false => true
  | _ => false

/-- A further turn in the main queue. -/
def Event.turns : Event ι → Bool
  | .turned _ => true
  | _ => false

/-- A refusal in the main queue. -/
def Event.refusesMain : Event ι → Bool
  | .asked _ .main _ false => true
  | _ => false

/-- The ghost queue stops remembering. -/
def Event.forgets : Event ι → Bool
  | .asked _ .ghost _ _ => true
  | _ => false

/-- A call of a request. -/
inductive Call (ι : Type)
  | evict (evictor : Evictor ι)
  | forgetExpired (evictor : Evictor ι)
  | forgetOldest (evictor : Evictor ι)

namespace Policy

/-- One call, with what the request has spent so far. -/
def serve (point : Point ι) : Call ι → Point ι
  | .evict evictor => (point.2.evict evictor point.1).2
  | .forgetExpired evictor => point.2.forgetExpired evictor point.2.ghost point.1
  | .forgetOldest evictor => (point.2.forgetOldest evictor point.1).2

/-- A request: calls that share one effort. -/
def request (p : Policy ι) (calls : List (Call ι)) : Point ι := calls.foldl serve ({}, p)

/-- **The effort counts what was logged**, since a log and under a cap. -/
structure Counts (cap : Nat) (log : List (Event ι)) (point : Point ι) : Prop where
  cap_eq : point.2.effortCap = cap
  freed : Logged Event.frees log point.1.freed point
  small : Logged Event.passesSmall log point.1.smallWasted point
  turns : Logged Event.turns log point.1.mainTurns point
  refused : Logged Event.refusesMain log point.1.mainRefused point
  forgotten : Logged Event.forgets log point.1.forgotten point
  small_le : point.1.smallWasted ≤ (point.1.freed + 1) * cap
  turns_le : point.1.mainTurns ≤ (point.1.freed + 1) * cap
  refused_le : point.1.mainRefused ≤ (point.1.freed + 1) * cap
  forgotten_le : point.1.forgotten ≤ cap

section Counting

variable {cap : Nat} {log : List (Event ι)} {a b : Point ι} {evictor : Evictor ι} {p : Policy ι} {spent : Effort}

omit [DecidableEq ι] in
theorem limit_le : p.limit spent ≤ (spent.freed + 1) * p.effortCap := Nat.mod_le _ _

omit [DecidableEq ι] in
theorem counts_start (p : Policy ι) : Counts p.effortCap p.log ({}, p) :=
  have hnothing : ∀ kind : Event ι → Bool, Logged kind p.log 0 (({}, p) : Point ι) :=
    fun _ => ⟨[], (List.append_nil _).symm, rfl⟩
  ⟨rfl, hnothing _, hnothing _, hnothing _, hnothing _, hnothing _, Nat.zero_le _, Nat.zero_le _, Nat.zero_le _,
    Nat.zero_le _⟩

theorem Counts.move (h : Counts cap log a) (move : Move evictor a b) : Counts cap log b := by
  obtain ⟨hcap, hfreed, hsmall, hturns, hrefused, hforgotten, hsmallLe, hturnsLe, hrefusedLe, hforgottenLe⟩ := h
  cases move with
  | @turn spent p id passed rest queued keeps more =>
    have hle : spent.mainTurns < (spent.freed + 1) * cap := hcap ▸ Nat.lt_of_lt_of_le more limit_le
    exact ⟨hcap, hfreed.snoc rfl rfl, hsmall.snoc rfl rfl, hturns.snoc rfl rfl, hrefused.snoc rfl rfl,
      hforgotten.snoc rfl rfl, hsmallLe, hle, hrefusedLe, hforgottenLe⟩
  | @refuseMain spent p id queued more refuses =>
    have hle : spent.mainRefused < (spent.freed + 1) * cap := hcap ▸ Nat.lt_of_lt_of_le more limit_le
    exact ⟨hcap, hfreed.snoc rfl rfl, hsmall.snoc rfl rfl, hturns.snoc rfl rfl, hrefused.snoc rfl rfl,
      hforgotten.snoc rfl rfl, hsmallLe, hturnsLe, hle, hforgottenLe⟩
  | spliceMain queued =>
    exact ⟨hcap, hfreed, hsmall, hturns, hrefused, hforgotten, hsmallLe, hturnsLe, hrefusedLe, hforgottenLe⟩
  | @promote spent p id passed rest queued used more =>
    have hle : spent.smallWasted < (spent.freed + 1) * cap := hcap ▸ Nat.lt_of_lt_of_le more limit_le
    exact ⟨hcap, hfreed.snoc rfl rfl, hsmall.snoc rfl rfl, hturns.snoc rfl rfl, hrefused.snoc rfl rfl,
      hforgotten.snoc rfl rfl, hle, hturnsLe, hrefusedLe, hforgottenLe⟩
  | @refuseSmall spent p id queued more refuses =>
    have hle : spent.smallWasted < (spent.freed + 1) * cap := hcap ▸ Nat.lt_of_lt_of_le more limit_le
    exact ⟨hcap, hfreed.snoc rfl rfl, hsmall.snoc rfl rfl, hturns.snoc rfl rfl, hrefused.snoc rfl rfl,
      hforgotten.snoc rfl rfl, hle, hturnsLe, hrefusedLe, hforgottenLe⟩
  | spliceSmall queued =>
    exact ⟨hcap, hfreed, hsmall, hturns, hrefused, hforgotten, hsmallLe, hturnsLe, hrefusedLe, hforgottenLe⟩

/-- What is freed allows more of everything else. -/
theorem Counts.frees (h : Counts cap log a) (frees : Frees evictor a b) : Counts cap log b := by
  obtain ⟨hcap, hfreed, hsmall, hturns, hrefused, hforgotten, hsmallLe, hturnsLe, hrefusedLe, hforgottenLe⟩ := h
  have hmore : (a.1.freed + 1) * cap ≤ (a.1.freed + 1 + 1) * cap := Nat.mul_le_mul_right cap (Nat.le_succ _)
  cases frees with
  | main queued approves =>
    exact ⟨hcap, hfreed.snoc rfl rfl, hsmall.snoc rfl rfl, hturns.snoc rfl rfl, hrefused.snoc rfl rfl,
      hforgotten.snoc rfl rfl, hsmallLe.trans hmore, hturnsLe.trans hmore, hrefusedLe.trans hmore, hforgottenLe⟩
  | small queued approves =>
    exact ⟨hcap, hfreed.snoc rfl rfl, hsmall.snoc rfl rfl, hturns.snoc rfl rfl, hrefused.snoc rfl rfl,
      hforgotten.snoc rfl rfl, hsmallLe.trans hmore, hturnsLe.trans hmore, hrefusedLe.trans hmore, hforgottenLe⟩

theorem Counts.forget (h : Counts cap log (spent, p)) (hmore : spent.forgotten < p.effortCap) {id : ι}
    {rest : List ι} :
    Counts cap log ({ spent with forgotten := spent.forgotten + 1 }, p.forget evictor id rest) := by
  obtain ⟨hcap, hfreed, hsmall, hturns, hrefused, hforgotten, hsmallLe, hturnsLe, hrefusedLe, hforgottenLe⟩ := h
  have hle : spent.forgotten + 1 ≤ cap := hcap ▸ hmore
  exact ⟨hcap, hfreed.snoc rfl rfl, hsmall.snoc rfl rfl, hturns.snoc rfl rfl, hrefused.snoc rfl rfl,
    hforgotten.snoc rfl rfl, hsmallLe, hturnsLe, hrefusedLe, hle⟩

theorem Counts.serve (h : Counts cap log a) (call : Call ι) : Counts cap log (serve a call) := by
  cases call with
  | evict evictor =>
    exact (evict_evicts evictor a.1 a.2).invariant (fun _ _ hcounts move => hcounts.move move)
      (fun _ _ hcounts frees => hcounts.frees frees) h
  | forgetExpired evictor =>
    obtain ⟨spent, p⟩ := a
    show Counts cap log (p.forgetExpired evictor p.ghost spent)
    generalize p.ghost = queue
    fun_induction Policy.forgetExpired evictor queue spent p with
    | case1 => exact h
    | case2 => exact h
    | case3 => exact h
    | case4 id rest spent p hcap hexpired ih => exact ih (h.forget (Nat.not_le.mp hcap))
  | forgetOldest evictor =>
    obtain ⟨spent, p⟩ := a
    show Counts cap log (p.forgetOldest evictor spent).2
    unfold Policy.forgetOldest
    split
    next => exact h
    next =>
      split
      next => exact h
      next hcap => exact h.forget (Nat.not_le.mp hcap)

theorem counts_request (p : Policy ι) (calls : List (Call ι)) : Counts p.effortCap p.log (p.request calls) := by
  unfold request
  induction calls using List.reverseRecOn with
  | nil => exact counts_start p
  | append_singleton calls call ih =>
    rw [List.foldl_append]
    exact ih.serve call

omit [DecidableEq ι] in
/-- The kinds of events are all there are. -/
theorem length_eq_kinds (new : List (Event ι)) : new.length = new.countP Event.frees + new.countP Event.passesSmall
    + new.countP Event.turns + new.countP Event.refusesMain + new.countP Event.forgets := by
  induction new with
  | nil => rfl
  | cons event rest ih =>
    have hone : ∀ kind : Event ι → Bool,
        (event :: rest).countP kind = rest.countP kind + if kind event then 1 else 0 := fun _ => List.countP_cons
    have hkinds : 1 = (if Event.frees event then 1 else 0) + (if Event.passesSmall event then 1 else 0)
        + (if Event.turns event then 1 else 0) + (if Event.refusesMain event then 1 else 0)
        + (if Event.forgets event then 1 else 0) := by
      cases event with
      | turned => rfl
      | promoted => rfl
      | asked id queue cost approved => cases queue <;> cases approved <;> rfl
    rw [List.length_cons, hone, hone, hone, hone, hone, ih]
    omega

end Counting

/-! ## Making room -/

/-- What an entry has left in the main queue. -/
def due (p : Policy ι) (id : ι) : Nat := (p.hooks id).freq + (p.expectedTurns - (p.hooks id).turns)

/-- **What falls with every event**: one for every entry of the main queue, two for one of the small queue, and
    what each has left. -/
def potential (p : Policy ι) : Nat :=
  weight (fun id => 1 + p.due id) p.main + weight (fun id => 2 + p.due id) p.small

/-- What was done, and what is left to do. -/
def ahead (point : Point ι) : Nat := point.2.potential + point.2.log.length

section Progress

variable {a b : Point ι} {evictor : Evictor ι} {p p' : Policy ι} {spent : Effort} {id : ι} {hook : Hook}

omit [DecidableEq ι] in
theorem weight_congr {cost cost' : ι → Nat} {queue : List ι} (h : ∀ id ∈ queue, cost id = cost' id) :
    weight cost queue = weight cost' queue := congrArg List.sum (List.map_congr_left h)

/-- One entry's hook changed; the others have left what they had. -/
structure Redue (p p' : Policy ι) (id : ι) (hook : Hook) : Prop where
  hooks : p'.hooks = Function.update p.hooks id hook
  expectedTurns : p'.expectedTurns = p.expectedTurns

theorem Redue.self (h : Redue p p' id hook) : p'.due id = hook.freq + (p.expectedTurns - hook.turns) := by
  unfold due
  rw [h.hooks, Function.update_self, h.expectedTurns]

theorem Redue.aside (h : Redue p p' id hook) {queue : List ι} (hnot : id ∉ queue) (base : Nat) :
    weight (fun id => base + p'.due id) queue = weight (fun id => base + p.due id) queue := by
  refine weight_congr fun other hmem => ?_
  have hne : other ≠ id := by
    rintro rfl
    exact hnot hmem
  unfold due
  rw [h.hooks, Function.update_of_ne hne, h.expectedTurns]

/-- A further turn takes one away. -/
theorem potential_turn (h : p.Represents) {passed rest : List ι} (hmain : p.main = passed ++ id :: rest)
    (hkeeps : p.awaited id = true ∨ 0 < (p.hooks id).freq) :
    (p.turn id (passed ++ rest)).potential + 1 ≤ p.potential := by
  obtain ⟨hgone, hsmall⟩ := h.once_main hmain
  have hredue : Redue p (p.turn id (passed ++ rest)) id _ := ⟨rfl, rfl⟩
  have hself := hredue.self
  have hdue : (p.turn id (passed ++ rest)).due id + 1 ≤ p.due id := by
    rw [hself]
    unfold due
    split
    next hawaited =>
      have hlt : (p.hooks id).turns < p.expectedTurns := by
        unfold awaited at hawaited
        exact of_decide_eq_true (Bool.and_eq_true_iff.mp hawaited).2
      dsimp only
      omega
    next hawaited =>
      have hpos : 0 < (p.hooks id).freq := hkeeps.resolve_left hawaited
      dsimp only
      omega
  unfold potential
  show weight _ (passed ++ rest ++ [id]) + weight _ p.small + 1 ≤ _
  rw [weight_snoc, hredue.aside hgone, hredue.aside hsmall, hmain, weight_split]
  omega

/-- A promotion takes one at least: what the entry had left of its uses goes. -/
theorem potential_promote (h : p.Represents) {passed rest : List ι} (hsmall : p.small = passed ++ id :: rest) :
    (p.promote id (passed ++ rest)).potential + 1 ≤ p.potential := by
  obtain ⟨hgone, hmain⟩ := h.once_small hsmall
  have hredue : Redue p (p.promote id (passed ++ rest)) id _ := ⟨rfl, rfl⟩
  have hself := hredue.self
  have hdue : (p.promote id (passed ++ rest)).due id ≤ p.due id := by
    rw [hself]
    unfold due
    dsimp only
    omega
  unfold potential
  show weight _ (p.main ++ [id]) + weight _ (passed ++ rest) + 1 ≤ _
  rw [weight_snoc, hredue.aside hgone, hredue.aside hmain, hsmall, weight_split]
  omega

/-- So does an entry that leaves the main queue. -/
theorem potential_takeMain (h : p.Represents) {passed rest : List ι} (hmain : p.main = passed ++ id :: rest)
    (leaves : Nat) : (p.takeMain id (passed ++ rest) leaves).potential + 1 ≤ p.potential := by
  obtain ⟨hgone, hsmall⟩ := h.once_main hmain
  have hredue : Redue p (p.takeMain id (passed ++ rest) leaves) id _ := ⟨rfl, rfl⟩
  unfold potential
  show weight _ (passed ++ rest) + weight _ p.small + 1 ≤ _
  rw [hredue.aside hgone, hredue.aside hsmall, hmain, weight_split]
  omega

/-- And one that leaves the small queue. -/
theorem potential_takeSmall (h : p.Represents) {passed rest : List ι} (hsmall : p.small = passed ++ id :: rest)
    (leaves : Nat) : (p.takeSmall id (passed ++ rest) leaves).potential + 1 ≤ p.potential := by
  obtain ⟨hgone, hmain⟩ := h.once_small hsmall
  have hredue : Redue p (p.takeSmall id (passed ++ rest) leaves) id _ := ⟨rfl, rfl⟩
  unfold potential
  show weight _ p.main + weight _ (passed ++ rest) + 1 ≤ _
  rw [hredue.aside hgone, hredue.aside hmain, hsmall, weight_split]
  omega

omit [DecidableEq ι] in
/-- An event that costs one is paid for. -/
theorem ahead_snoc {event : Event ι} (hpaid : b.2.potential + 1 ≤ a.2.potential)
    (hlog : b.2.log = a.2.log ++ [event]) : ahead b ≤ ahead a := by
  unfold ahead
  rw [hlog, List.length_append, List.length_singleton]
  omega

theorem ahead_frees (h : a.2.Represents) (frees : Frees evictor a b) : ahead b ≤ ahead a := by
  cases frees with
  | main queued approves => exact ahead_snoc (potential_takeMain h queued _) rfl
  | small queued approves => exact ahead_snoc (potential_takeSmall h queued _) rfl

/-- **Every event is paid for**, as long as nobody refuses. -/
theorem ahead_move (hwilling : ∀ log id queue, (evictor log id queue).approves = true) (h : a.2.Represents)
    (move : Move evictor a b) : ahead b ≤ ahead a := by
  cases move with
  | turn queued keeps more => exact ahead_snoc (potential_turn h queued keeps) rfl
  | refuseMain queued more refuses =>
    rw [hwilling] at refuses
    cases refuses
  | @spliceMain spent p passed rest queued =>
    have hperm : (rest ++ passed).Perm p.main := queued ▸ List.perm_append_comm
    unfold ahead potential
    show weight _ (rest ++ passed) + _ + _ ≤ _
    rw [weight_perm hperm]
    exact Nat.le_refl _
  | promote queued used more => exact ahead_snoc (potential_promote h queued) rfl
  | refuseSmall queued more refuses =>
    rw [hwilling] at refuses
    cases refuses
  | @spliceSmall spent p passed rest queued =>
    have hperm : (rest ++ passed).Perm p.small := queued ▸ List.perm_append_comm
    unfold ahead potential
    show _ + weight _ (rest ++ passed) + _ ≤ _
    rw [weight_perm hperm]
    exact Nat.le_refl _

theorem ahead_evict (hwilling : ∀ log id queue, (evictor log id queue).approves = true) (h : p.Kept) :
    ahead (p.evict evictor spent).2 ≤ ahead (spent, p) := by
  have hevicts := evict_evicts evictor spent p
  refine (hevicts.invariant (I := fun point => point.2.Kept ∧ ahead point ≤ ahead (spent, p)) ?_ ?_
    ⟨h, Nat.le_refl _⟩).2
  · intro a b hkept move
    exact ⟨hkept.1.move move, (ahead_move hwilling hkept.1.represents move).trans hkept.2⟩
  · intro a b hkept frees
    exact ⟨hkept.1.frees frees, (ahead_frees hkept.1.represents frees).trans hkept.2⟩

/-- The log only grows. -/
theorem Evicts.log_le {start : Point ι} {result : Bool × Point ι} (h : Evicts evictor start result) :
    start.2.log.length ≤ result.2.2.log.length := by
  have hsnoc : ∀ (a b : Point ι) (event : Event ι), start.2.log.length ≤ a.2.log.length →
      b.2.log = a.2.log ++ [event] → start.2.log.length ≤ b.2.log.length := by
    intro a b event hle hlog
    rw [hlog, List.length_append]
    exact Nat.le_add_right_of_le hle
  refine h.invariant (I := fun point => start.2.log.length ≤ point.2.log.length) ?_ ?_ (Nat.le_refl _)
  · intro a b hle move
    cases move with
    | turn => exact hsnoc _ _ _ hle rfl
    | refuseMain => exact hsnoc _ _ _ hle rfl
    | spliceMain => exact hle
    | promote => exact hsnoc _ _ _ hle rfl
    | refuseSmall => exact hsnoc _ _ _ hle rfl
    | spliceSmall => exact hle
  · intro a b hle frees
    cases frees with
    | main => exact hsnoc _ _ _ hle rfl
    | small => exact hsnoc _ _ _ hle rfl

/-- What follows an event leaves the log longer than it was before. -/
theorem Evicts.log_lt {start : Point ι} {result : Bool × Point ι} {event : Event ι} (h : Evicts evictor start result)
    (hlog : start.2.log = p.log ++ [event]) : p.log.length < result.2.2.log.length := by
  have hle := h.log_le
  rw [hlog, List.length_append, List.length_singleton] at hle
  exact hle

theorem evictMain_progress (hmain : p.main ≠ []) (hmore : spent.mainRefused < p.limit spent) :
    p.log.length < (evictMain evictor [] spent p p.main).2.2.log.length := by
  cases hqueue : p.main with
  | nil => exact absurd hqueue hmain
  | cons id rest =>
    have hone : ∀ event : Event ι, p.log.length < (p.log ++ [event]).length := by
      intro event
      rw [List.length_append, List.length_singleton]
      exact Nat.lt_succ_self _
    rw [evictMain, if_neg (Nat.not_le.mpr hmore)]
    split
    next =>
      dsimp only
      split
      next => exact hone _
      next => exact (evictMain_evicts (List.nil_append _)).log_lt rfl
    next =>
      dsimp only
      split
      next => exact hone _
      next => exact (evictMain_evicts hqueue).log_lt rfl

theorem evictSmall_progress (hsmall : p.small ≠ []) (hmore : spent.smallWasted < p.limit spent) :
    p.log.length < (evictSmall evictor [] p.small spent p).2.2.log.length := by
  cases hqueue : p.small with
  | nil => exact absurd hqueue hsmall
  | cons id rest =>
    rw [evictSmall, if_neg (Nat.not_le.mpr hmore)]
    split
    next =>
      have hpromoted : ∀ spent, Evicts evictor (spent, p.promote id ([] ++ rest))
          (evictSmall evictor [] rest spent (p.promote id ([] ++ rest))) := fun _ => evictSmall_evicts rfl
      dsimp only
      split
      next =>
        have hevicts : Evicts evictor ({ spent with smallWasted := spent.smallWasted + 1 }, p.promote id ([] ++ rest))
            (evictMain evictor [] { spent with smallWasted := spent.smallWasted + 1 } (p.promote id ([] ++ rest))
              (p.promote id ([] ++ rest)).main) := evictMain_evicts (List.nil_append _).symm
        have hmain := hevicts.log_lt (p := p) rfl
        split
        next heq => rwa [heq] at hmain
        next spent₂ p₂ heq =>
          rw [heq] at hmain
          have hrest : p₂.small = [] ++ rest := by
            have hsame := @evictMain_small ι _ evictor [] (p.promote id ([] ++ rest)).main
              { spent with smallWasted := spent.smallWasted + 1 } (p.promote id ([] ++ rest))
            rw [heq] at hsame
            exact hsame
          exact Nat.lt_of_lt_of_le hmain (@evictSmall_evicts ι _ evictor [] rest spent₂ p₂ hrest).log_le
      next => exact (hpromoted _).log_lt rfl
    next =>
      dsimp only
      split
      next =>
        show p.log.length < (p.log ++ [_]).length
        rw [List.length_append, List.length_singleton]
        exact Nat.lt_succ_self _
      next => exact (evictSmall_evicts hqueue).log_lt rfl

/-- **A call is never in vain** while a queue holds something and a request may do some work. -/
theorem evict_progress (hmore : 0 < p.limit {}) (hsome : p.small ≠ [] ∨ p.main ≠ []) :
    p.log.length < (p.evict evictor {}).2.2.log.length := by
  unfold evict
  split
  · by_cases hsmall : p.small = []
    · rw [hsmall, evictSmall]
      exact evictMain_progress (hsome.resolve_left fun hnot => hnot hsmall) hmore
    · have hfirst := @evictSmall_progress ι _ evictor p {} hsmall hmore
      split
      next heq => rwa [heq] at hfirst
      next spent₂ p₂ heq =>
        rw [heq] at hfirst
        exact Nat.lt_of_lt_of_le hfirst (evictMain_evicts (List.nil_append _).symm).log_le
  · by_cases hmain : p.main = []
    · rw [hmain, evictMain]
      exact evictSmall_progress (hsome.resolve_right fun hnot => hnot hmain) hmore
    · have hfirst := @evictMain_progress ι _ evictor p {} hmain hmore
      split
      next heq => rwa [heq] at hfirst
      next spent₂ p₂ heq =>
        rw [heq] at hfirst
        exact Nat.lt_of_lt_of_le hfirst (evictSmall_evicts (List.nil_append _).symm).log_le

/-- A call that finds both queues empty does nothing. -/
theorem evict_idle (hsmall : p.small = []) (hmain : p.main = []) : p.evict evictor spent = (false, spent, p) := by
  unfold evict
  rw [hsmall, hmain, evictSmall, evictMain]
  split
  next =>
    dsimp only
    rw [hmain, evictMain]
  next =>
    dsimp only
    rw [hsmall, evictSmall]

/-- Requests of one call each. -/
def drain (evictors : Nat → Evictor ι) : Nat → Policy ι → Policy ι
  | 0, p => p
  | n + 1, p => drain (fun k => evictors (k + 1)) n (p.evict (evictors 0) {}).2.2

theorem potential_evict (hwilling : ∀ log id queue, (evictor log id queue).approves = true) (h : p.Kept)
    (hmore : 0 < p.limit {}) (hsome : p.small ≠ [] ∨ p.main ≠ []) :
    (p.evict evictor {}).2.2.potential < p.potential := by
  have hahead := @ahead_evict ι _ evictor p {} hwilling h
  have hlog := @evict_progress ι _ evictor p hmore hsome
  unfold ahead at hahead
  dsimp only at hahead
  omega

omit [DecidableEq ι] in
theorem empty_of_potential (h : p.potential = 0) : p.small = [] ∧ p.main = [] := by
  have hsum : ∀ (queue : List ι) (cost : ι → Nat), (∀ id, 0 < cost id) → weight cost queue = 0 → queue = [] := by
    intro queue cost hpos hzero
    cases queue with
    | nil => rfl
    | cons id rest =>
      have hhead := hpos id
      unfold weight at hzero
      rw [List.map_cons, List.sum_cons] at hzero
      omega
  unfold potential at h
  exact ⟨hsum _ (fun id => 2 + p.due id) (fun id => by omega) (by omega),
    hsum _ (fun id => 1 + p.due id) (fun id => by omega) (by omega)⟩

theorem effortCap_evict : (p.evict evictor spent).2.2.effortCap = p.effortCap := by
  refine (evict_evicts evictor spent p).invariant (I := fun point => point.2.effortCap = p.effortCap) ?_ ?_ rfl
  · intro a b hsame move
    cases move <;> exact hsame
  · intro a b hsame frees
    cases frees <;> exact hsame

theorem effortCap_forgetExpired {queue : List ι} :
    (p.forgetExpired evictor queue spent).2.effortCap = p.effortCap := by
  fun_induction Policy.forgetExpired evictor queue spent p with
  | case1 => rfl
  | case2 => rfl
  | case3 => rfl
  | case4 _ _ _ _ _ _ ih => exact ih

theorem effortCap_forgetOldest : (p.forgetOldest evictor spent).2.2.effortCap = p.effortCap := by
  unfold Policy.forgetOldest
  split
  next => rfl
  next => split <;> rfl

theorem drain_empties (n : Nat) : ∀ (evictors : Nat → Evictor ι) (p : Policy ι), p.Kept → 0 < p.limit {} →
    (∀ k log id queue, (evictors k log id queue).approves = true) → p.potential ≤ n →
    (drain evictors n p).small = [] ∧ (drain evictors n p).main = [] := by
  induction n with
  | zero =>
    intro evictors p _ _ _ hpotential
    exact empty_of_potential (Nat.le_zero.mp hpotential)
  | succ n ih =>
    intro evictors p hkept hmore hwilling hpotential
    have hnext : (p.evict (evictors 0) {}).2.2.potential ≤ n := by
      by_cases hempty : p.small = [] ∧ p.main = []
      · rw [evict_idle hempty.1 hempty.2]
        show p.potential ≤ n
        have hzero : p.potential = 0 := by
          unfold potential
          rw [hempty.1, hempty.2]
          rfl
        omega
      · have hsome : p.small ≠ [] ∨ p.main ≠ [] := not_and_or.mp hempty
        have hless := potential_evict (hwilling 0) hkept hmore hsome
        omega
    have hmore' : 0 < (p.evict (evictors 0) {}).2.2.limit {} := by
      unfold limit
      rw [effortCap_evict]
      exact hmore
    exact ih _ _ (hkept.evict _ _) hmore' (fun k => hwilling (k + 1)) hnext

/-- No step changes what a request may do. -/
theorem effortCap_of_reachable {config : Config} (h : (system ι config).Reachable p) :
    p.effortCap = config.effortCap := by
  refine @System.Run.invariant _ _ _ _ (fun q : Policy ι => q.effortCap = config.effortCap) ?_ ?_ _ h
  · rintro _ rfl
    rfl
  · intro s a s' _ ih _ hstep
    replace hstep : s.step a = some s' := hstep
    cases a with
    | construct id replaces cost =>
      rw [Policy.step] at hstep
      obtain ⟨_, ⟨⟩⟩ := Option.ite_none_right_eq_some.mp hstep
      exact ih
    | expect id uses =>
      cases hstep
      exact ih
    | touch id =>
      cases hstep
      exact ih
    | recost id cost =>
      rw [Policy.step] at hstep
      obtain ⟨_, ⟨⟩⟩ := Option.ite_none_left_eq_some.mp hstep
      exact ih
    | insert id =>
      rw [Policy.step] at hstep
      obtain ⟨_, ⟨⟩⟩ := Option.ite_none_right_eq_some.mp hstep
      unfold Policy.insert
      dsimp only
      split <;> exact ih
    | remove id =>
      cases hstep
      unfold Policy.remove
      dsimp only
      split <;> exact ih
    | evict evictor spent =>
      cases hstep
      exact effortCap_evict.trans ih
    | forgetExpired evictor spent =>
      cases hstep
      exact effortCap_forgetExpired.trans ih
    | forgetOldest evictor spent =>
      cases hstep
      exact effortCap_forgetOldest.trans ih

/-- **What a request costs, and that requests make room.** Of whatever policy, and whatever the evictors answer,
    the calls of a request that freed `f` values passed so many promotions and refusals in the small queue, gave
    so many further turns and passed so many refusals in the main queue, and forgot no more than the cap: what
    it did is bounded by what it freed. And where a request may do some work and nobody refuses, requests of one
    call each empty both queues. -/
theorem policy_effort (p : Policy ι) :
    (∀ calls, ∃ new, (p.request calls).2.log = p.log ++ new
      ∧ new.countP Event.passesSmall ≤ (new.countP Event.frees + 1) * p.effortCap
      ∧ new.countP Event.turns ≤ (new.countP Event.frees + 1) * p.effortCap
      ∧ new.countP Event.refusesMain ≤ (new.countP Event.frees + 1) * p.effortCap
      ∧ new.length ≤ 3 * ((new.countP Event.frees + 1) * p.effortCap) + new.countP Event.frees + p.effortCap)
    ∧ ∀ config, (system ι config).Reachable p → 1 ≤ config.effortCap → ∀ evictors : Nat → Evictor ι,
      (∀ k log id queue, (evictors k log id queue).approves = true) →
        ∃ n, ∀ m ≥ n, (drain evictors m p).small = [] ∧ (drain evictors m p).main = [] := by
  refine ⟨?_, ?_⟩
  · intro calls
    obtain ⟨_, ⟨new, hnew, hfreed⟩, hsmall, hturns, hrefused, hforgotten, hsmallLe, hturnsLe, hrefusedLe,
      hforgottenLe⟩ := counts_request p calls
    have hkind : ∀ (kind : Event ι → Bool) (n : Nat), Logged kind p.log n (p.request calls) → new.countP kind = n := by
      rintro kind n ⟨new', hnew', hcount⟩
      rw [List.append_cancel_left (hnew.symm.trans hnew'), hcount]
    have hlength := length_eq_kinds new
    rw [hkind _ _ hsmall, hkind _ _ hturns, hkind _ _ hrefused, hkind _ _ hforgotten, hfreed] at hlength
    refine ⟨new, hnew, ?_⟩
    rw [hkind _ _ hsmall, hkind _ _ hturns, hkind _ _ hrefused, hfreed]
    refine ⟨hsmallLe, hturnsLe, hrefusedLe, ?_⟩
    omega
  · intro config hreach hcap evictors hwilling
    have hlimit : p.limit {} = config.effortCap := by
      unfold limit
      rw [effortCap_of_reachable hreach, Nat.zero_add, Nat.one_mul]
      exact wrap_of_lt config.effortCap_lt
    refine ⟨p.potential, fun m hm => ?_⟩
    exact drain_empties m evictors p (kept_of_reachable hreach) (hlimit ▸ hcap) hwilling hm

/-- Three entries of the small cache, one of them used twice in the small queue and one awaited in the main. -/
def usedEntries : List (Action Nat) :=
  [.construct 0 none 3, .construct 1 none 4, .construct 2 none 5, .expect 2 1, .insert 0, .insert 1, .insert 2,
    .touch 1, .touch 1]

theorem policy_effort_some : ∃ p : Policy Nat, ((system Nat someConfig).Reachable p ∧ p.small = [0, 1]
    ∧ p.main = [2]) ∧ ∃ n, ∀ m ≥ n, (drain (fun _ => willing) m p).small = []
      ∧ (drain (fun _ => willing) m p).main = [] := by
  have hrun : ∃ q ∈ (system Nat someConfig).exec (make someConfig) usedEntries, q.small = [0, 1] ∧ q.main = [2] := by
    decide +kernel
  obtain ⟨p, hp, hsmall, hmain⟩ := hrun
  have hreach : (system Nat someConfig).Reachable p := System.Run.of_exec (.init rfl) hp
  exact ⟨p, ⟨hreach, hsmall, hmain⟩,
    (policy_effort p).2 someConfig hreach (by decide) (fun _ => willing) (fun _ _ _ _ => rfl)⟩

end Progress

end Policy

end KwaqueStorage.CachePolicy
