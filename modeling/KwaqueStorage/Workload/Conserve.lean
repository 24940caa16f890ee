import KwaqueStorage.Workload.Budget
import KwaqueStorage.Lib.Sums

/-!
# Conservation

What is left in each semaphore of a budget and what its live grants hold add up to its limit, and the count of
every grant is the number of reservations that point to it. Between a pointer being overwritten and its grant
being told, the count is one too many: the invariant carries that pointer as owed, so that every operation is
a chain of small ones that owe a pointer or pay it.
-/

namespace KwaqueStorage.Workload

open Lib Finset
open Function (update update_comm update_idem update_of_ne update_self)

/-- What grants hold together, by one of their sizes. -/
def weigh (size : Grant → Nat) (grant : Option Grant) : Nat := (grant.map size).getD 0

/-- Whether a pointer is to a grant. -/
def points (g : Nat) (to_ : Option Nat) : Nat := if to_ = some g then 1 else 0

theorem weigh_some {size : Grant → Nat} {held : Grant} : weigh size (some held) = size held := rfl

theorem weigh_none {size : Grant → Nat} : weigh size none = 0 := rfl

theorem points_self {g : Nat} : points g (some g) = 1 := if_pos rfl

theorem points_none {g : Nat} : points g none = 0 := rfl

theorem points_of_ne {g g' : Nat} (h : g' ≠ g) : points g (some g') = 0 := if_neg fun heq => h (Option.some.inj heq)

namespace Budget

/-- What the live grants hold together, by one of their sizes. -/
def total (b : Budget) (size : Grant → Nat) : Nat := ∑ g ∈ range b.made, weigh size (b.grants g)

/-- How many reservations point to a grant. -/
def holders (b : Budget) (g : Nat) : Nat := ∑ r ∈ range b.objects, points g (b.holds r)

/-- **Conservation**, while one pointer may be owed. -/
structure Owing (b : Budget) (owed : Option Nat) : Prop where
  counted : ∀ g, b.holders g + points g owed = weigh Grant.useCount (b.grants g)
  alive : ∀ g held, b.grants g = some held → 0 < held.useCount
  made_ : ∀ g, b.made ≤ g → b.grants g = none
  constructed : ∀ r, b.objects ≤ r → b.holds r = none
  units : ∀ g held, b.grants g = some held → held.task = 1 ∧ held.localUnits = held.charged
    ∧ held.workload = held.charged ∧ held.charged = held.retained + b.overhead
  tasks_eq : b.tasks + b.total Grant.task = b.limits.tasks
  bytes_eq : b.localBytes + b.total Grant.localUnits = b.limits.bytes
  handles_eq : b.handles + b.total Grant.handle = b.limits.handles

section Steps

variable {b : Budget} {owed : Option Nat} {g r : Nat} {held : Grant}

theorem Owing.lt_made (h : b.Owing owed) (hg : b.grants g = some held) : g < b.made := by
  by_contra hge
  rw [h.made_ g (Nat.le_of_not_lt hge)] at hg
  cases hg

theorem holders_point (hr : r < b.objects) {to_ : Option Nat} (g : Nat) :
    (b.point r to_).holders g + points g (b.holds r) = b.holders g + points g to_ :=
  sum_range_update hr

theorem holders_construct {to_ : Option Nat} (g : Nat) :
    (b.construct to_).holders g = b.holders g + points g to_ :=
  sum_range_make

/-- A pointer that is overwritten by nothing is owed. -/
theorem Owing.point (h : b.Owing none) (hr : r < b.objects) : (b.point r none).Owing (b.holds r) := by
  refine { h with counted := ?_, constructed := ?_ }
  · intro g
    have hmoved := @holders_point b r hr none g
    have hcounted := h.counted g
    rw [points_none] at hmoved hcounted
    show (b.point r none).holders g + points g (b.holds r) = weigh Grant.useCount (b.grants g)
    omega
  · intro other hother
    have hne : other ≠ r := Nat.ne_of_gt (hr.trans_le hother)
    show update b.holds r none other = none
    rw [update_of_ne hne]
    exact h.constructed other hother

/-- A new reservation takes over the pointer that is owed. -/
theorem Owing.construct (h : b.Owing owed) : (b.construct owed).Owing none := by
  refine { h with counted := ?_, constructed := ?_ }
  · intro g
    rw [holders_construct, points_none, Nat.add_zero]
    exact h.counted g
  · intro other hother
    have hne : other ≠ b.objects := Nat.ne_of_gt hother
    show update b.holds b.objects owed other = none
    rw [update_of_ne hne]
    exact h.constructed other (Nat.le_of_succ_le hother)

theorem total_update {b' : Budget} {size : Grant → Nat} {to_ : Option Grant} (hmade : b'.made = b.made)
    (hgrants : b'.grants = update b.grants g to_) (hg : g < b.made) :
    b'.total size + weigh size (b.grants g) = b.total size + weigh size to_ := by
  unfold total
  rw [hmade, hgrants]
  exact sum_range_update hg

/-- What one grant becomes keeps the books: what it holds less, the semaphores have more. -/
structure Booked (b b' : Budget) (g : Nat) (to_ : Option Grant) : Prop where
  grants_eq : b'.grants = update b.grants g to_
  made_eq : b'.made = b.made
  holds_eq : b'.holds = b.holds
  objects_eq : b'.objects = b.objects
  limits_eq : b'.limits = b.limits
  overhead_eq : b'.overhead = b.overhead
  sound : ∀ held, to_ = some held → 0 < held.useCount ∧ held.task = 1 ∧ held.localUnits = held.charged
    ∧ held.workload = held.charged ∧ held.charged = held.retained + b.overhead
  tasks_eq : b'.tasks + weigh Grant.task to_ = b.tasks + weigh Grant.task (b.grants g)
  bytes_eq : b'.localBytes + weigh Grant.localUnits to_ = b.localBytes + weigh Grant.localUnits (b.grants g)
  handles_eq : b'.handles + weigh Grant.handle to_ = b.handles + weigh Grant.handle (b.grants g)

/-- **One grant changes.** -/
theorem Owing.change {b' : Budget} {owed' : Option Nat} {to_ : Option Grant} (h : b.Owing owed)
    (hg : g < b.made) (hbooked : b.Booked b' g to_)
    (hcount : ∀ g', b.holders g' + points g' owed'
      = weigh Grant.useCount (update b.grants g to_ g')) : b'.Owing owed' := by
  have hmoved : ∀ size : Grant → Nat, b'.total size + weigh size (b.grants g) = b.total size + weigh size to_ :=
    fun size => total_update hbooked.made_eq hbooked.grants_eq hg
  have hcases : ∀ g' held', b'.grants g' = some held' → to_ = some held' ∨ b.grants g' = some held' := by
    intro g' held' hg'
    rw [hbooked.grants_eq] at hg'
    by_cases heq : g' = g
    · rw [heq, update_self] at hg'
      exact .inl hg'
    · rw [update_of_ne heq] at hg'
      exact .inr hg'
  refine ⟨?_, ?_, ?_, ?_, ?_, ?_, ?_, ?_⟩
  · intro g'
    have hholders : b'.holders g' = b.holders g' := by
      unfold holders
      rw [hbooked.objects_eq, hbooked.holds_eq]
    rw [hholders, hbooked.grants_eq]
    exact hcount g'
  · intro g' held' hg'
    rcases hcases g' held' hg' with hnew | hold
    · exact (hbooked.sound held' hnew).1
    · exact h.alive g' held' hold
  · intro g' hg'
    rw [hbooked.made_eq] at hg'
    have hne : g' ≠ g := Nat.ne_of_gt (hg.trans_le hg')
    rw [hbooked.grants_eq, update_of_ne hne]
    exact h.made_ g' hg'
  · intro r hr
    rw [hbooked.objects_eq] at hr
    rw [hbooked.holds_eq]
    exact h.constructed r hr
  · intro g' held' hg'
    rw [hbooked.overhead_eq]
    rcases hcases g' held' hg' with hnew | hold
    · exact (hbooked.sound held' hnew).2
    · exact h.units g' held' hold
  · have hsum := h.tasks_eq
    have hdelta := hbooked.tasks_eq
    have htotal := hmoved Grant.task
    rw [hbooked.limits_eq]
    omega
  · have hsum := h.bytes_eq
    have hdelta := hbooked.bytes_eq
    have htotal := hmoved Grant.localUnits
    rw [hbooked.limits_eq]
    omega
  · have hsum := h.handles_eq
    have hdelta := hbooked.handles_eq
    have htotal := hmoved Grant.handle
    rw [hbooked.limits_eq]
    omega

/-- A grant of which a pointer goes or comes. -/
theorem Owing.count {owed' : Option Nat} (h : b.Owing owed) (hg : b.grants g = some held) {n : Nat}
    (hn : 0 < n) (hself : b.holders g + points g owed' = n)
    (hrest : ∀ g', g' ≠ g → points g' owed' = points g' owed) :
    Owing { b with grants := update b.grants g (some { held with useCount := n }) } owed' := by
  obtain ⟨htask, hlocal, hworkload, hcharged⟩ := h.units g held hg
  have hbooked : b.Booked { b with grants := update b.grants g (some { held with useCount := n }) } g
      (some { held with useCount := n }) := by
    refine ⟨rfl, rfl, rfl, rfl, rfl, rfl, ?_, ?_, ?_, ?_⟩
    · intro held' heq
      cases heq
      exact ⟨hn, htask, hlocal, hworkload, hcharged⟩
    · rw [hg]
      rfl
    · rw [hg]
      rfl
    · rw [hg]
      rfl
  refine h.change (h.lt_made hg) hbooked ?_
  intro g'
  by_cases heq : g' = g
  · rw [heq, update_self, weigh_some]
    exact hself
  · rw [update_of_ne heq, hrest g' heq]
    exact h.counted g'

/-- The last pointer to a grant: its units go back. -/
theorem Owing.free (h : b.Owing (some g)) (hg : b.grants g = some held) (hlast : held.useCount = 1) :
    (b.free g held).Owing none := by
  have hbooked : b.Booked (b.free g held) g none := by
    refine ⟨rfl, rfl, rfl, rfl, rfl, rfl, (fun _ heq => nomatch heq), ?_, ?_, ?_⟩
    · rw [hg]
      rfl
    · rw [hg]
      rfl
    · rw [hg]
      rfl
  refine h.change (h.lt_made hg) hbooked ?_
  intro g'
  have hcounted := h.counted g'
  rw [points_none]
  by_cases heq : g' = g
  · rw [heq, hg, weigh_some, hlast, points_self] at hcounted
    rw [heq, update_self, weigh_none]
    omega
  · rw [update_of_ne heq, ← hcounted, points_of_ne (Ne.symm heq)]

/-- **A pointer that is owed is paid**: the count goes down, and with the last one the grant dies. -/
theorem Owing.release (h : b.Owing owed) : (b.release owed).Owing none := by
  cases owed with
  | none => exact h
  | some g =>
    have hcounted := h.counted g
    rw [points_self] at hcounted
    unfold Budget.release
    dsimp only
    split
    next hg =>
      rw [hg, weigh_none] at hcounted
      omega
    next held hg =>
      rw [hg, weigh_some] at hcounted
      split
      next hlast => exact h.free hg hlast
      next hmore =>
        have halive := h.alive g held hg
        refine h.count hg (by omega) ?_ ?_
        · rw [points_none]
          omega
        · intro g' heq
          rw [points_none, points_of_ne (Ne.symm heq)]

theorem Owing.destroy (h : b.Owing none) (hr : r < b.objects) : (b.destroy r).Owing none :=
  (h.point hr).release

theorem Owing.moveConstruct (h : b.Owing none) (hr : r < b.objects) : (b.moveConstruct r).Owing none :=
  (h.point hr).construct

theorem Owing.share {b' : Budget} (h : b.Owing none) (hshare : b.share r = some b') : b'.Owing none := by
  unfold Budget.share at hshare
  split at hshare
  next => cases hshare
  next g hholds =>
    split at hshare
    next => cases hshare
    next held hg =>
      cases hshare
      have hcounted := h.counted g
      rw [hg, weigh_some, points_none] at hcounted
      refine Owing.construct (h.count hg (Nat.succ_pos _) ?_ ?_)
      · rw [points_self]
        omega
      · intro g' heq
        rw [points_none, points_of_ne (Ne.symm heq)]

/-- A reservation that takes over another's pointer owes its own. -/
theorem Owing.moveAssign (h : b.Owing none) {to_ : Nat} (hto : to_ < b.objects) (hr : r < b.objects)
    (keeps : Bool) : (b.moveAssign to_ r keeps).Owing none := by
  unfold Budget.moveAssign
  split
  next => exact h
  next hne =>
    split
    next => exact h
    next =>
      refine Owing.release ?_
      refine { h with counted := ?_, constructed := ?_ }
      · intro g
        have hcounted := h.counted g
        have hfirst := @holders_point b to_ hto (b.holds r) g
        have hsecond := @holders_point (b.point to_ (b.holds r)) r hr none g
        have hsame : (b.point to_ (b.holds r)).holds r = b.holds r := by
          unfold Budget.point
          dsimp only
          rw [update_of_ne (Ne.symm hne)]
        rw [hsame, points_none] at hsecond
        rw [points_none] at hcounted
        show ((b.point to_ (b.holds r)).point r none).holders g + points g (b.holds to_)
          = weigh Grant.useCount (b.grants g)
        omega
      · intro other hother
        have hne' : other ≠ r := Nat.ne_of_gt (hr.trans_le hother)
        have hne'' : other ≠ to_ := Nat.ne_of_gt (hto.trans_le hother)
        show update (update b.holds to_ (b.holds r)) r none other = none
        rw [update_of_ne hne', update_of_ne hne'']
        exact h.constructed other hother

theorem Owing.reject (h : b.Owing none) : b.reject.Owing none :=
  ⟨h.counted, h.alive, h.made_, h.constructed, h.units, h.tasks_eq, h.bytes_eq, h.handles_eq⟩

/-- A grant that is made takes its units and owes its first pointer. -/
theorem Owing.grant (h : b.Owing none) {cost retained : Nat} (hcost : cost = retained + b.overhead)
    (htask : 1 ≤ b.tasks) (hlocal : cost ≤ b.localBytes) : (b.grant cost retained).Owing (some b.made) := by
  have hnone : b.grants b.made = none := h.made_ b.made (Nat.le_refl _)
  have htotal : ∀ size : Grant → Nat, (b.grant cost retained).total size
      = b.total size + size ⟨1, 1, cost, cost, 0, cost, retained⟩ := fun size => sum_range_make
  have hcases : ∀ g held, (b.grant cost retained).grants g = some held
      → held = ⟨1, 1, cost, cost, 0, cost, retained⟩ ∨ b.grants g = some held := by
    intro g held hg
    change update b.grants b.made _ g = some held at hg
    by_cases heq : g = b.made
    · rw [heq, update_self] at hg
      exact .inl (Option.some.inj hg).symm
    · rw [update_of_ne heq] at hg
      exact .inr hg
  refine ⟨?_, ?_, ?_, h.constructed, ?_, ?_, ?_, ?_⟩
  · intro g
    have hcounted := h.counted g
    rw [points_none, Nat.add_zero] at hcounted
    show b.holders g + points g (some b.made)
      = weigh Grant.useCount (update b.grants b.made (some ⟨1, 1, cost, cost, 0, cost, retained⟩) g)
    by_cases heq : g = b.made
    · rw [heq, hnone, weigh_none] at hcounted
      rw [heq, update_self, points_self, weigh_some, hcounted]
    · rw [update_of_ne heq, points_of_ne (Ne.symm heq)]
      exact hcounted
  · intro g held hg
    rcases hcases g held hg with rfl | hold
    · exact Nat.one_pos
    · exact h.alive g held hold
  · intro g hg
    have hne : g ≠ b.made := Nat.ne_of_gt hg
    show update b.grants b.made _ g = none
    rw [update_of_ne hne]
    exact h.made_ g (Nat.le_of_succ_le hg)
  · intro g held hg
    rcases hcases g held hg with rfl | hold
    · exact ⟨rfl, rfl, rfl, hcost⟩
    · exact h.units g held hold
  · have hsum := h.tasks_eq
    rw [htotal]
    show b.tasks - 1 + (b.total Grant.task + 1) = b.limits.tasks
    omega
  · have hsum := h.bytes_eq
    rw [htotal]
    show b.localBytes - cost + (b.total Grant.localUnits + cost) = b.limits.bytes
    omega
  · have hsum := h.handles_eq
    rw [htotal]
    exact hsum

theorem Owing.tryReserve (h : b.Owing none) (retained : Nat) (allocates : Bool) :
    (b.tryReserve retained allocates).2.Owing none := by
  unfold Budget.tryReserve
  split
  next => exact h.reject
  next =>
    split
    next => exact h.reject
    next cost hcost =>
      split
      next => exact h.reject
      next htask =>
        split
        next => exact h.reject
        next hlocal =>
          split
          next => exact h.reject
          next =>
            split
            next => exact h
            next =>
              unfold reservationCharge at hcost
              split at hcost
              next => cases hcost
              next =>
                cases hcost
                exact (h.grant rfl (Nat.le_of_not_lt htask) (Nat.le_of_not_lt hlocal)).construct

theorem Owing.tryAcquireHandles (h : b.Owing none) (count : Nat) :
    (b.tryAcquireHandles r count).2.Owing none := by
  unfold Budget.tryAcquireHandles
  split
  next => exact h
  next g hholds =>
    split
    next => exact h
    next held hg =>
      split
      next => exact h.reject
      next =>
        split
        next => exact h.reject
        next hfree =>
          split
          next => exact h.reject
          next =>
            split
            next => exact h.reject
            next henough =>
              obtain ⟨htask, hlocal, hworkload, hcharged⟩ := h.units g held hg
              have hzero : held.handle = 0 := by
                by_contra hne
                exact hfree (.inr hne)
              have hbooked : b.Booked { b with
                  handles := b.handles - count
                  grants := update b.grants g (some { held with handle := count }) } g
                  (some { held with handle := count }) := by
                refine ⟨rfl, rfl, rfl, rfl, rfl, rfl, ?_, ?_, ?_, ?_⟩
                · intro held' heq
                  cases heq
                  exact ⟨h.alive g held hg, htask, hlocal, hworkload, hcharged⟩
                · rw [hg]
                  rfl
                · rw [hg]
                  rfl
                · rw [hg, weigh_some, weigh_some, hzero]
                  exact Nat.sub_add_cancel (Nat.le_of_not_lt henough)
              refine h.change (h.lt_made hg) hbooked ?_
              intro g'
              by_cases heq : g' = g
              · have hcounted := h.counted g
                rw [hg] at hcounted
                rw [heq, update_self]
                exact hcounted
              · rw [update_of_ne heq]
                exact h.counted g'

/-- What `adopt` leaves, when it is not refused. -/
def merged (held given : Grant) : Grant :=
  { held with
    localUnits := held.localUnits + given.retained
    workload := held.workload + given.retained
    charged := held.charged + given.retained
    retained := held.retained + given.retained }

/-- What a successful `adopt` does: the grant given dies, and what it was asked to retain moves. -/
structure Adopts (b b' : Budget) (g from_ other : Nat) (held given : Grant) : Prop where
  apart : g ≠ from_
  holds_other : b.holds other = some from_
  held_eq : b.grants g = some held
  given_eq : b.grants from_ = some given
  last : given.useCount = 1
  bare : given.handle = 0
  grants_eq : b'.grants = update (update b.grants from_ none) g (some (merged held given))
  made_eq : b'.made = b.made
  holds_eq : b'.holds = update b.holds other none
  objects_eq : b'.objects = b.objects
  limits_eq : b'.limits = b.limits
  overhead_eq : b'.overhead = b.overhead
  tasks_eq : b'.tasks = b.tasks + 1
  bytes_eq : b'.localBytes = b.localBytes + b.overhead
  handles_eq : b'.handles = b.handles

theorem Owing.adopt_cases {other : Nat} (h : b.Owing none) : (b.adopt r other).2 = b
    ∨ ∃ g from_ held given, b.Adopts (b.adopt r other).2 g from_ other held given := by
  unfold Budget.adopt
  split
  next g from_ hr hother =>
    split
    next held given hheld hgiven =>
      split
      next => exact .inl rfl
      next hfine =>
        right
        obtain ⟨hne, hexclusive, hlast, hhandle⟩ : g ≠ from_ ∧ held.useCount = 1 ∧ given.useCount = 1
            ∧ given.handle = 0 := by
          simp only [not_or, not_not] at hfine
          exact hfine
        obtain ⟨htask, hlocal, hworkload, hcharged⟩ := h.units from_ given hgiven
        have hmerged : { held with
            localUnits := held.localUnits + (given.localUnits - (given.charged - given.retained))
            workload := held.workload + (given.workload - (given.charged - given.retained))
            charged := held.charged + given.retained
            retained := held.retained + given.retained } = merged held given := by
          have hleft : given.localUnits - (given.charged - given.retained) = given.retained := by omega
          have hleft' : given.workload - (given.charged - given.retained) = given.retained := by omega
          rw [hleft, hleft']
          rfl
        have hfinal : ((b.adopted g from_ held given).point other none).release (some from_)
            = ((b.adopted g from_ held given).point other none).free from_
              { given with localUnits := 0, workload := 0 } := by
          have hstill : ((b.adopted g from_ held given).point other none).grants from_
              = some { given with localUnits := 0, workload := 0 } := update_self ..
          unfold Budget.release
          dsimp only
          rw [hstill]
          exact if_pos hlast
        refine ⟨g, from_, held, given, ?_⟩
        dsimp only
        rw [hfinal]
        refine ⟨hne, hother, hheld, hgiven, hlast, hhandle, ?_, rfl, rfl, rfl, rfl, rfl, ?_, ?_, ?_⟩
        · unfold Budget.free Budget.point Budget.adopted
          dsimp only
          rw [hmerged, update_idem, update_comm hne]
        · show b.tasks + given.task = b.tasks + 1
          rw [htask]
        · show b.localBytes + (given.charged - given.retained) + 0 = b.localBytes + b.overhead
          omega
        · show b.handles + given.handle = b.handles
          rw [hhandle, Nat.add_zero]
    next => exact .inl rfl
  next => exact .inl rfl

/-- The grant given is freed first; then the other takes what it was asked to retain. -/
theorem Owing.adopts {b' : Budget} {from_ other : Nat} {given : Grant} (h : b.Owing none)
    (hadopts : b.Adopts b' g from_ other held given) : b'.Owing none := by
  have hother : other < b.objects := by
    by_contra hge
    have hnone := h.constructed other (Nat.le_of_not_lt hge)
    rw [hadopts.holds_other] at hnone
    cases hnone
  have howed : (b.point other none).Owing (some from_) := hadopts.holds_other ▸ h.point hother
  have hfreed : ((b.point other none).free from_ given).Owing none := howed.free hadopts.given_eq hadopts.last
  obtain ⟨htask, hlocal, hworkload, hcharged⟩ := h.units g held hadopts.held_eq
  obtain ⟨htask', hlocal', _, hcharged'⟩ := h.units from_ given hadopts.given_eq
  have hstill : ((b.point other none).free from_ given).grants g = some held := by
    show update b.grants from_ none g = some held
    rw [update_of_ne hadopts.apart]
    exact hadopts.held_eq
  have hbytes := hadopts.bytes_eq
  have hbooked : ((b.point other none).free from_ given).Booked b' g (some (merged held given)) := by
    refine { hadopts with sound := ?_, tasks_eq := ?_, bytes_eq := ?_, handles_eq := ?_ }
    · intro held' heq
      cases heq
      refine ⟨h.alive g held hadopts.held_eq, htask, ?_, ?_, ?_⟩
      · exact congrArg (· + given.retained) hlocal
      · exact congrArg (· + given.retained) hworkload
      · show held.charged + given.retained = held.retained + given.retained + b.overhead
        omega
    · rw [hstill]
      show b'.tasks + held.task = b.tasks + given.task + held.task
      rw [hadopts.tasks_eq, htask']
    · rw [hstill]
      show b'.localBytes + (held.localUnits + given.retained) = b.localBytes + given.localUnits + held.localUnits
      omega
    · rw [hstill]
      show b'.handles + held.handle = b.handles + given.handle + held.handle
      rw [hadopts.handles_eq, hadopts.bare, Nat.add_zero]
  refine hfreed.change (hfreed.lt_made hstill) hbooked ?_
  intro g'
  have hcounted := hfreed.counted g'
  by_cases heq : g' = g
  · rw [heq] at hcounted ⊢
    rw [update_self]
    rw [hstill] at hcounted
    exact hcounted
  · rw [update_of_ne heq]
    exact hcounted

end Steps

end Budget

end KwaqueStorage.Workload
