import KwaqueStorage.CachePolicy.Represent

/-!
# The policy over every run

The ghost queue is kept in the order entries came to it, and an entry's time is the age of the queue when it
came: all that had left the small queue until then. So the times do not decrease from the front, and what has
expired is at the front. Both rest on the age not having wrapped.
-/

namespace KwaqueStorage.CachePolicy

open Lib Relation
open PageCache (Hook Location Queue Effort)
open Function (update update_of_ne update_self)

variable {ι : Type} [DecidableEq ι]

/-- What leaves the small queue with an event. -/
def Event.departs : Event ι → Nat
  | .asked _ .small cost true => cost
  | _ => 0

/-- Whether a value goes with an event. -/
def Event.frees : Event ι → Bool
  | .asked _ .small _ true => true
  | .asked _ .main _ true => true
  | _ => false

/-- All that left the small queue. -/
def departed (log : List (Event ι)) : Nat := (log.map Event.departs).sum

omit [DecidableEq ι] in
theorem departed_snoc {log : List (Event ι)} {event : Event ι} :
    departed (log ++ [event]) = departed log + event.departs := by
  unfold departed
  rw [List.map_append, List.sum_append, List.map_singleton, List.sum_singleton]

namespace Policy

/-- When an entry came to the ghost queue. -/
def since (p : Policy ι) (id : ι) : Nat := (p.hooks id).ghostInsertionTime.getD 0

/-- **The ghost queue is in the order of its times**, which are all past. -/
structure Ordered (p : Policy ι) : Prop where
  timed : ∀ id ∈ p.ghost, (p.hooks id).ghostInsertionTime = some (p.since id) ∧ p.since id ≤ p.ghostAge
  ordered : p.ghost.Pairwise fun id later => p.since id ≤ p.since later

/-- The age is all that left the small queue, and the queue is in order until the age wraps. -/
structure Aged (p : Policy ι) : Prop where
  age : p.ghostAge = wrap (departed p.log)
  ordered : departed p.log + p.maxMain < 2 ^ 64 → p.Ordered

section Ages

variable {p p' : Policy ι} {id : ι} {passed rest : List ι} {hook : Hook}

omit [DecidableEq ι] in
/-- Nothing comes to the ghost queue, and what stays keeps its time. -/
theorem Aged.keep (h : p.Aged) (hghost : p'.ghost.Sublist p.ghost)
    (htimes : ∀ id ∈ p'.ghost, (p'.hooks id).ghostInsertionTime = (p.hooks id).ghostInsertionTime)
    (hage : p'.ghostAge = p.ghostAge) (hlog : departed p'.log = departed p.log) (hmax : p'.maxMain = p.maxMain) :
    p'.Aged := by
  have hsince : ∀ id ∈ p'.ghost, p'.since id = p.since id := by
    intro id hmem
    unfold since
    rw [htimes id hmem]
  refine ⟨?_, ?_⟩
  · rw [hage, hlog, h.age]
  · intro hfits
    rw [hlog, hmax] at hfits
    obtain ⟨htimed, hordered⟩ := h.ordered hfits
    refine ⟨?_, ?_⟩
    · intro id hmem
      rw [htimes id hmem, hsince id hmem, hage]
      exact htimed id (hghost.subset hmem)
    · refine (hordered.sublist hghost).imp_of_mem ?_
      intro id later hid hlater hle
      rwa [hsince id hid, hsince later hlater]

/-- An entry's hook changes and its time does not. -/
theorem time_same (hhooks : p'.hooks = update p.hooks id hook)
    (hsame : hook.ghostInsertionTime = (p.hooks id).ghostInsertionTime) (other : ι) :
    (p'.hooks other).ghostInsertionTime = (p.hooks other).ghostInsertionTime := by
  rw [hhooks]
  by_cases heq : other = id
  · rw [heq, update_self, hsame]
  · rw [update_of_ne heq]

/-- A hook changes and not its time. -/
theorem Aged.rehooked (h : p.Aged) (hhooks : p'.hooks = update p.hooks id hook)
    (hsame : hook.ghostInsertionTime = (p.hooks id).ghostInsertionTime) (hghost : p'.ghost.Sublist p.ghost)
    (hage : p'.ghostAge = p.ghostAge) (hlog : departed p'.log = departed p.log) (hmax : p'.maxMain = p.maxMain) :
    p'.Aged :=
  h.keep hghost (fun other _ => time_same hhooks hsame other) hage hlog hmax

/-- The hook of an entry that is not in the ghost queue changes. -/
theorem time_aside (hhooks : p'.hooks = update p.hooks id hook) (hnot : id ∉ p.ghost) (other : ι)
    (hmem : other ∈ p.ghost) : (p'.hooks other).ghostInsertionTime = (p.hooks other).ghostInsertionTime := by
  have hne : other ≠ id := by
    rintro rfl
    exact hnot hmem
  rw [hhooks, update_of_ne hne]

/-- **An entry comes to the ghost queue**, at the age it has. -/
theorem Aged.takeSmall (h : p.Aged) (hnot : id ∉ p.ghost) (others : List ι) (leaves : Nat) :
    (p.takeSmall id others leaves).Aged := by
  have hdeparted : departed (p.log ++ [.asked id .small (p.cost id) true]) = departed p.log + p.cost id :=
    departed_snoc
  refine ⟨?_, ?_⟩
  · show wrap (p.ghostAge + p.cost id) = wrap (departed (p.log ++ [.asked id .small (p.cost id) true]))
    rw [hdeparted, h.age, wrap_add]
  · intro hfits
    replace hfits : departed (p.log ++ [.asked id .small (p.cost id) true]) + p.maxMain < 2 ^ 64 := hfits
    rw [hdeparted] at hfits
    obtain ⟨htimed, hordered⟩ := h.ordered (by omega)
    have hage : p.ghostAge = departed p.log := h.age.trans (wrap_of_lt (by omega))
    have hage' : (p.takeSmall id others leaves).ghostAge = p.ghostAge + p.cost id :=
      wrap_of_lt (by omega)
    have hself : ((p.takeSmall id others leaves).hooks id).ghostInsertionTime = some p.ghostAge := by
      show (update p.hooks id _ id).ghostInsertionTime = some p.ghostAge
      rw [update_self]
    have hselfSince : (p.takeSmall id others leaves).since id = p.ghostAge := by
      unfold since
      rw [hself]
      rfl
    have hother : ∀ other ∈ p.ghost, ((p.takeSmall id others leaves).hooks other).ghostInsertionTime
        = (p.hooks other).ghostInsertionTime := time_aside rfl hnot
    have hotherSince : ∀ other ∈ p.ghost, (p.takeSmall id others leaves).since other = p.since other := by
      intro other hmem
      unfold since
      rw [hother other hmem]
    refine ⟨?_, ?_⟩
    · intro other hmem
      rcases List.mem_append.mp hmem with hold | hnew
      · obtain ⟨htime, hpast⟩ := htimed other hold
        rw [hother other hold, hotherSince other hold, hage']
        exact ⟨htime, Nat.le_add_right_of_le hpast⟩
      · obtain rfl := List.mem_singleton.mp hnew
        rw [hself, hselfSince, hage']
        exact ⟨rfl, Nat.le_add_right _ _⟩
    · refine List.pairwise_append.mpr ⟨?_, List.pairwise_singleton _ _, ?_⟩
      · refine hordered.imp_of_mem ?_
        intro other later hmem hlater hle
        rwa [hotherSince other hmem, hotherSince later hlater]
      · intro other hmem last hlast
        obtain rfl := List.mem_singleton.mp hlast
        rw [hotherSince other hmem, hselfSince]
        exact (htimed other hmem).2

omit [DecidableEq ι] in
/-- Where the age has not wrapped, what has expired is at the front. -/
theorem Ordered.expired_first (h : p.Ordered) (hfits : p.ghostAge + p.maxMain < 2 ^ 64) :
    ∃ expired kept, p.ghost = expired ++ kept ∧ (∀ id ∈ expired, p.ghostQueueContains id = false)
      ∧ ∀ id ∈ kept, p.ghostQueueContains id = true := by
  have hcontains : ∀ id ∈ p.ghost, p.ghostQueueContains id = decide (p.ghostAge < p.since id + p.maxMain) := by
    intro id hmem
    obtain ⟨htime, hpast⟩ := h.timed id hmem
    have hsum : wrap (p.since id + p.maxMain) = p.since id + p.maxMain := wrap_of_lt (by omega)
    unfold ghostQueueContains
    rw [htime, Option.any_some, hsum]
  obtain ⟨_, hordered⟩ := h
  revert hcontains hordered
  induction p.ghost with
  | nil => exact fun _ _ => ⟨[], [], rfl, nofun, nofun⟩
  | cons id rest ih =>
    intro hcontains hordered
    have hhead := hcontains id (List.mem_cons_self ..)
    cases hfirst : p.ghostQueueContains id with
    | true =>
      refine ⟨[], id :: rest, rfl, nofun, ?_⟩
      intro other hmem
      rw [hcontains other hmem]
      rw [hfirst] at hhead
      have hlt := of_decide_eq_true hhead.symm
      rcases List.mem_cons.mp hmem with rfl | hlater
      · exact decide_eq_true hlt
      · have hle := (List.pairwise_cons.mp hordered).1 other hlater
        exact decide_eq_true (by omega)
    | false =>
      obtain ⟨expired, kept, hsplit, hexpired, hkept⟩ := ih (fun other hmem => hcontains other (List.mem_cons_of_mem _ hmem))
        (List.pairwise_cons.mp hordered).2
      refine ⟨id :: expired, kept, by rw [hsplit, List.cons_append], ?_, hkept⟩
      intro other hmem
      rcases List.mem_cons.mp hmem with rfl | hlater
      · exact hfirst
      · exact hexpired other hlater

end Ages

/-! ## Every step -/

/-- **What is kept**: the fields say what the queues hold, and the ghost queue is in order. -/
structure Kept (p : Policy ι) : Prop where
  represents : p.Represents
  aged : p.Aged

section Steps

variable {p p' : Policy ι} {id : ι} {evictor : Evictor ι} {spent : Effort}

theorem kept_make (config : Config) : (make config : Policy ι).Kept :=
  ⟨represents_make config, rfl, fun _ => ⟨nofun, .nil⟩⟩

theorem Kept.not_mem_ghost (h : p.Kept) (hat : p.location id ≠ .ghost) : id ∉ p.ghost :=
  fun hmem => hat ((h.represents.linked.mem_iff .ghost nofun).mp hmem)

/-- Moves that free nothing do not touch the ghost queue. -/
theorem Kept.move {a b : Point ι} (h : a.2.Kept) (move : Move evictor a b) : b.2.Kept := by
  obtain ⟨hrepresents, haged⟩ := h
  cases move with
  | @turn spent p id passed rest queued keeps more =>
    refine ⟨hrepresents.turn queued, haged.rehooked rfl ?_ (.refl _) rfl departed_snoc rfl⟩
    split
    next => rfl
    next => rfl
  | @refuseMain spent p id queued more refuses =>
    exact ⟨hrepresents.refuseMain queued,
      haged.rehooked rfl rfl (.refl _) rfl departed_snoc rfl⟩
  | spliceMain queued =>
    exact ⟨hrepresents.spliceMain queued, haged.keep (.refl _) (fun _ _ => rfl) rfl rfl rfl⟩
  | @promote spent p id passed rest queued used more =>
    exact ⟨hrepresents.promote queued,
      haged.rehooked rfl rfl (.refl _) rfl departed_snoc rfl⟩
  | refuseSmall queued more refuses =>
    exact ⟨⟨hrepresents.linked, hrepresents.small, hrepresents.main, hrepresents.ghost⟩,
      haged.keep (.refl _) (fun _ _ => rfl) rfl departed_snoc rfl⟩
  | spliceSmall queued =>
    exact ⟨hrepresents.spliceSmall queued, haged.keep (.refl _) (fun _ _ => rfl) rfl rfl rfl⟩

theorem Kept.frees {a b : Point ι} (h : a.2.Kept) (frees : Frees evictor a b) : b.2.Kept := by
  cases frees with
  | main queued approves =>
    exact ⟨h.represents.takeMain queued _,
      h.aged.rehooked rfl rfl (.refl _) rfl departed_snoc rfl⟩
  | @small spent p id passed rest queued approves =>
    have hat : p.location id = .small := h.represents.linked.at_of_split .small nofun queued
    exact ⟨h.represents.takeSmall queued _, h.aged.takeSmall (h.not_mem_ghost (hat ▸ nofun)) _ _⟩

theorem Kept.evict (h : p.Kept) (evictor : Evictor ι) (spent : Effort) : (p.evict evictor spent).2.2.Kept :=
  (evict_evicts evictor spent p).invariant (I := fun point => point.2.Kept) (fun _ _ hkept move => hkept.move move)
    (fun _ _ hkept frees => hkept.frees frees) h

theorem Kept.forget (h : p.Kept) {rest : List ι} (hghost : p.ghost = id :: rest) :
    (p.forget evictor id rest).Kept := by
  refine ⟨h.represents.forget hghost, h.aged.rehooked rfl rfl ?_ rfl departed_snoc rfl⟩
  rw [hghost]
  exact List.sublist_cons_self id rest

theorem Kept.forgetExpired (h : p.Kept) {queue : List ι} (hghost : p.ghost = queue) :
    (p.forgetExpired evictor queue spent).2.Kept := by
  fun_induction Policy.forgetExpired evictor queue spent p with
  | case1 => exact h
  | case2 => exact h
  | case3 => exact h
  | case4 id rest spent p hcap hexpired ih => exact ih (h.forget hghost) rfl

theorem Kept.forgetOldest (h : p.Kept) : (p.forgetOldest evictor spent).2.2.Kept := by
  unfold Policy.forgetOldest
  split
  next => exact h
  next hghost =>
    split
    next => exact h
    next => exact h.forget hghost

theorem Kept.insert (h : p.Kept) (hat : p.location id = .none) : (p.insert id).Kept := by
  have hnot : id ∉ p.ghost := h.not_mem_ghost (hat ▸ nofun)
  refine ⟨h.represents.insert hat, ?_⟩
  unfold Policy.insert
  dsimp only
  split
  · exact h.aged.keep (.refl _) (time_aside rfl hnot) rfl rfl rfl
  · exact h.aged.keep (.refl _) (time_aside rfl hnot) rfl rfl rfl

theorem Kept.remove (h : p.Kept) : (p.remove id).Kept := by
  refine ⟨h.represents.remove, ?_⟩
  unfold Policy.remove
  dsimp only
  split
  · exact h.aged
  · exact h.aged.rehooked rfl rfl (.refl _) rfl rfl rfl
  · exact h.aged.rehooked rfl rfl (.refl _) rfl rfl rfl
  · exact h.aged.rehooked rfl rfl List.erase_sublist rfl rfl rfl

/-- **Every step keeps it.** -/
theorem Kept.step {a : Action ι} (h : p.Kept) (hstep : p.step a = some p') : p'.Kept := by
  have hchange : ∀ (id : ι) (hook : Hook), hook.location = p.location id →
      hook.ghostInsertionTime = (p.hooks id).ghostInsertionTime → (p.rehook id hook).Kept := by
    intro id hook hsame htime
    exact ⟨h.represents.rehook hsame, h.aged.rehooked rfl htime (.refl _) rfl rfl rfl⟩
  cases a with
  | construct id replaces cost =>
    rw [Policy.step] at hstep
    obtain ⟨hat, ⟨⟩⟩ := Option.ite_none_right_eq_some.mp hstep
    have hlocation : ((replaces.map fun other => (p.hooks other).copy).getD {}).location = p.location id := by
      cases replaces <;> exact hat.symm
    have hhook : (p.rehook id ((replaces.map fun other => (p.hooks other).copy).getD {})).Represents :=
      h.represents.rehook hlocation
    have hnone : (p.rehook id ((replaces.map fun other => (p.hooks other).copy).getD {})).location id = .none :=
      (location_self rfl).trans (hlocation.trans hat)
    have hnot : id ∉ p.ghost := h.not_mem_ghost fun heq => nomatch hat.symm.trans heq
    exact ⟨hhook.recost (fun heq => nomatch hnone.symm.trans heq) (fun heq => nomatch hnone.symm.trans heq) cost,
      h.aged.keep (.refl _) (time_aside rfl hnot) rfl rfl rfl⟩
  | expect id uses =>
    rw [Policy.step] at hstep
    cases hstep
    exact hchange id _ rfl rfl
  | touch id =>
    rw [Policy.step] at hstep
    cases hstep
    refine hchange id _ ?_ ?_
    · unfold Hook.touch
      split <;> rfl
    · unfold Hook.touch
      split <;> rfl
  | recost id cost =>
    rw [Policy.step] at hstep
    obtain ⟨hat, ⟨⟩⟩ := Option.ite_none_left_eq_some.mp hstep
    rw [not_or] at hat
    exact ⟨h.represents.recost hat.1 hat.2 cost, h.aged.keep (.refl _) (fun _ _ => rfl) rfl rfl rfl⟩
  | insert id =>
    rw [Policy.step] at hstep
    obtain ⟨hat, ⟨⟩⟩ := Option.ite_none_right_eq_some.mp hstep
    exact h.insert hat
  | remove id =>
    rw [Policy.step] at hstep
    cases hstep
    exact h.remove
  | evict evictor spent =>
    rw [Policy.step] at hstep
    cases hstep
    exact h.evict evictor spent
  | forgetExpired evictor spent =>
    rw [Policy.step] at hstep
    cases hstep
    exact h.forgetExpired rfl
  | forgetOldest evictor spent =>
    rw [Policy.step] at hstep
    cases hstep
    exact h.forgetOldest

theorem kept_of_reachable {config : Config} (h : (system ι config).Reachable p) : p.Kept := by
  refine System.Run.invariant ?_ ?_ h
  · rintro _ rfl
    exact kept_make config
  · intro s a s' _ ih _ hstep
    exact ih.step hstep

/-! ## What an eviction frees -/

/-- What was logged since: a stretch with so many events of a kind. -/
def Logged (kind : Event ι → Bool) (log : List (Event ι)) (n : Nat) (point : Point ι) : Prop :=
  ∃ new, point.2.log = log ++ new ∧ new.countP kind = n

omit [DecidableEq ι] in
theorem Logged.snoc {kind : Event ι → Bool} {log : List (Event ι)} {n n' : Nat} {a b : Point ι} {event : Event ι}
    (h : Logged kind log n a) (hlog : b.2.log = a.2.log ++ [event])
    (hn : n' = n + if kind event then 1 else 0) : Logged kind log n' b := by
  subst hn
  obtain ⟨new, hnew, hcount⟩ := h
  refine ⟨new ++ [event], ?_, ?_⟩
  · rw [hlog, hnew, List.append_assoc]
  · rw [List.countP_append, List.countP_singleton, hcount]

theorem Logged.move {log : List (Event ι)} {a b : Point ι} (h : Logged Event.frees log 0 a)
    (move : Move evictor a b) : Logged Event.frees log 0 b := by
  cases move with
  | turn => exact h.snoc rfl rfl
  | refuseMain => exact h.snoc rfl rfl
  | spliceMain => exact h
  | promote => exact h.snoc rfl rfl
  | refuseSmall => exact h.snoc rfl rfl
  | spliceSmall => exact h

theorem Evicts.frees_one {start : Point ι} {result : Bool × Point ι} (h : Evicts evictor start result) :
    Logged Event.frees start.2.log (if result.1 then 1 else 0) result.2 := by
  have hmoves : ∀ final, ReflTransGen (Move evictor) start final → Logged Event.frees start.2.log 0 final := by
    intro final moves
    induction moves with
    | refl => exact ⟨[], (List.append_nil _).symm, rfl⟩
    | tail _ move ih => exact ih.move move
  cases h with
  | nothing moves => exact hmoves _ moves
  | freed moves frees =>
    cases frees with
    | main => exact (hmoves _ moves).snoc rfl rfl
    | small => exact (hmoves _ moves).snoc rfl rfl

/-- **The policy's fields, over every run.** Whatever is made, expected, touched, inserted, removed, evicted and
    forgotten, and whatever the evictor answers: every entry is in the queue its location names, once, and in
    no other; the sizes are the 64-bit sums of what is in the queues and the count of the ghost queue is its
    length; while what ever left the small queue and the capacity of the main queue together fit in 64 bits,
    the ghost queue is in the order of its times and what has expired is at its front; and an eviction frees
    one value if it says so and none if not. -/
theorem policy_represented {config : Config} (h : (system ι config).Reachable p) :
    p.Represents
      ∧ (departed p.log + p.maxMain < 2 ^ 64 → p.Ordered
        ∧ ∃ expired kept, p.ghost = expired ++ kept ∧ (∀ id ∈ expired, p.ghostQueueContains id = false)
          ∧ ∀ id ∈ kept, p.ghostQueueContains id = true)
      ∧ ∀ evictor spent, Logged Event.frees p.log (if (p.evict evictor spent).1 then 1 else 0)
        (p.evict evictor spent).2 := by
  have hkept := kept_of_reachable h
  refine ⟨hkept.represents, ?_, fun evictor spent => (evict_evicts evictor spent p).frees_one⟩
  intro hfits
  have hordered := hkept.aged.ordered hfits
  refine ⟨hordered, hordered.expired_first ?_⟩
  rw [hkept.aged.age, wrap_of_lt (by omega)]
  exact hfits

/-- An evictor that refuses nothing. -/
def willing : Evictor Nat := fun _ _ _ => ⟨true, 1⟩

/-- A small cache. -/
def someConfig : Config := { cacheSize := 2, smallSize := 1, shares := by decide, cacheSize_lt := by decide, effortCap_lt := by decide, expectedTurns_lt := by decide }

/-- Three entries of half of what 64 bits count leave the small queue one after another. -/
def wrapping : List (Action Nat) :=
  [.construct 0 none (2 ^ 63), .construct 1 none (2 ^ 63), .construct 2 none (2 ^ 63), .insert 0, .insert 1,
    .insert 2, .evict willing {}, .evict willing {}, .evict willing {}]

/-- The age wraps after the second of three entries: the times of the ghost queue go down again, and the entry
    that is still remembered stands between two that are not. -/
theorem policy_times_wrap : ¬ ∀ p : Policy Nat, (system Nat someConfig).Reachable p → p.Ordered := by
  intro hall
  have hrun : ∃ q ∈ (system Nat someConfig).exec (make someConfig) wrapping, q.ghost = [0, 1, 2]
      ∧ q.since 0 = 0 ∧ q.since 1 = 2 ^ 63 ∧ q.since 2 = 0 ∧ q.ghostQueueContains 0 = false
      ∧ q.ghostQueueContains 1 = true ∧ q.ghostQueueContains 2 = false := by decide +kernel
  obtain ⟨q, hq, hghost, _, hsecond, hthird, _⟩ := hrun
  have hordered := (hall q (System.Run.of_exec (.init rfl) hq)).ordered
  rw [hghost] at hordered
  have hle := (List.pairwise_cons.mp (List.pairwise_cons.mp hordered).2).1 2 (List.mem_singleton_self 2)
  rw [hsecond, hthird] at hle
  exact absurd hle (by decide)

theorem policy_represented_some : ∃ p : Policy Nat, ((system Nat someConfig).Reachable p ∧ p.ghost = [0]
    ∧ p.small = [1] ∧ p.main = [2]) ∧ p.Represents ∧ p.Ordered := by
  have hrun : ∃ q ∈ (system Nat someConfig).exec (make someConfig)
      [.construct 0 none 3, .construct 1 none 4, .construct 2 none 5, .expect 2 1, .insert 0, .insert 1, .insert 2,
        .evict willing {}], q.ghost = [0] ∧ q.small = [1] ∧ q.main = [2] ∧ departed q.log + q.maxMain < 2 ^ 64 := by
    decide +kernel
  obtain ⟨p, hp, hghost, hsmall, hmain, hfits⟩ := hrun
  have hreach : (system Nat someConfig).Reachable p := System.Run.of_exec (.init rfl) hp
  obtain ⟨hrepresents, hordered, _⟩ := policy_represented hreach
  exact ⟨p, ⟨hreach, hghost, hsmall, hmain⟩, hrepresents, (hordered hfits).1⟩

end Steps

end Policy

end KwaqueStorage.CachePolicy
