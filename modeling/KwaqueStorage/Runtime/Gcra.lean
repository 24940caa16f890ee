import KwaqueStorage.Lib.Runs

/-!
# A rate bound in one word

`gcra` keeps one time, the theoretical arrival of the next request. A request is granted when it is no more
than a burst less one early, and moves the arrival time one interval past the later of itself and the
request. A grant that was not used is given back by moving the arrival time back.

The bound is about the grants that stand: those made and not given back. While the word was not idle, every
standing grant has moved the arrival time by an interval, so the arrival time tells how many there are. A
grant given back late breaks this: the arrival time was moved up to a later request meanwhile, and what is
given back was already regained. `Spared` is when giving back leaves enough.
-/

namespace KwaqueStorage.Runtime

open Lib

/-- The largest 64-bit number of nanoseconds. -/
def timeMax : Nat := 18446744073709551615

/-- `checked_add(..).value_or(maximum())`. -/
def saturatingAdd (time duration : Nat) : Nat := if time + duration ≤ timeMax then time + duration else timeMax

/-- `saturating_multiply`. -/
def saturatingMultiply (value count : Nat) : Nat :=
  if count ≠ 0 ∧ timeMax / count < value then timeMax else value * count

/-- `gcra::decision`. -/
structure Decision where
  granted : Bool
  retryAt : Nat
  deriving DecidableEq

/-- How early a request may be. -/
def tolerance (interval burst : Nat) : Nat := saturatingMultiply interval (max burst 1 - 1)

/-- `gcra::try_take`, on the arrival time. -/
def tryTake (arrival now interval burst : Nat) : Decision × Nat :=
  if saturatingAdd now (tolerance interval burst) < arrival then
    (⟨false, arrival - tolerance interval burst⟩, arrival)
  else (⟨true, now⟩, saturatingAdd (max arrival now) interval)

/-- `gcra::refund`. -/
def refund (arrival interval : Nat) : Nat := if interval ≤ arrival then arrival - interval else 0

/-! ## Calls in turn -/

/-- A word in use: its arrival time, the time of the last call, and the times of the grants that stand. -/
structure Word where
  arrival : Nat := 0
  clock : Nat := 0
  standing : List Nat := []
  deriving DecidableEq

/-- A call of the word's owner: a request, or a grant given back. -/
inductive Call
  | take (now : Nat)
  | giveBack (index : Nat)
  deriving DecidableEq

/-- One call. Time does not go back; no operation saturates; what is given back is a grant that stands. -/
def Word.call (interval burst : Nat) (w : Word) : Call → Option Word
  | .take now =>
    if w.clock ≤ now ∧ now + interval * (burst - 1) ≤ timeMax ∧ max w.arrival now + interval ≤ timeMax then
      let taken := tryTake w.arrival now interval burst
      some ⟨taken.2, now, if taken.1.granted then now :: w.standing else w.standing⟩
    else none
  | .giveBack index =>
    if index < w.standing.length then
      some ⟨refund w.arrival interval, w.clock, w.standing.eraseIdx index⟩
    else none

/-- The calls of a word, for an interval and a burst. -/
def calls (interval burst : Nat) : System Word Call where
  init := fun w => w = {}
  step := Word.call interval burst

/-- The grants that stand and were made from a time on. -/
def Word.since (w : Word) (start : Nat) : Nat := w.standing.countP fun time => start ≤ time

/-- The grants that stand and were made in a closed window. -/
def Word.within (w : Word) (start stop : Nat) : Nat :=
  w.standing.countP fun time => start ≤ time ∧ time ≤ stop

/-- **Giving back leaves enough**: for the time of each grant made after the one given back, the arrival time
    moved back, or the last call, is as many intervals past it as grants stand from it on. -/
def Spared (interval : Nat) (w : Word) : Call → Prop
  | .take _ => True
  | .giveBack index => ∀ time ∈ w.standing, w.standing.getD index 0 < time →
      time + interval * w.since time ≤ max (w.arrival - interval) w.clock

/-! ## The word -/

section Word

variable {interval burst arrival now time duration : Nat}

theorem saturatingAdd_eq (h : time + duration ≤ timeMax) : saturatingAdd time duration = time + duration :=
  if_pos h

theorem saturatingAdd_le : saturatingAdd time duration ≤ time + duration := by
  unfold saturatingAdd
  split <;> omega

theorem tolerance_le : tolerance interval burst ≤ timeMax := by
  unfold tolerance saturatingMultiply
  split
  next => exact Nat.le_refl _
  next h =>
    by_cases hzero : max burst 1 - 1 = 0
    · rw [hzero]
      exact Nat.zero_le _
    · have hle : interval ≤ timeMax / (max burst 1 - 1) := Nat.le_of_not_lt fun hlt => h ⟨hzero, hlt⟩
      exact (Nat.le_div_iff_mul_le (Nat.pos_of_ne_zero hzero)).mp hle

theorem tolerance_eq (h : interval * (burst - 1) ≤ timeMax) : tolerance interval burst = interval * (burst - 1) := by
  have hburst : max burst 1 - 1 = burst - 1 := by omega
  unfold tolerance saturatingMultiply
  rw [hburst]
  refine if_neg ?_
  rintro ⟨hne, hlt⟩
  exact absurd ((Nat.le_div_iff_mul_le (Nat.pos_of_ne_zero hne)).mpr h) (Nat.not_le.mpr hlt)

/-- **A refusal tells when to return**: before that time the same request is refused again, and at it
    granted. -/
theorem tryTake_refused (harrival : arrival ≤ timeMax)
    (h : (tryTake arrival now interval burst).1.granted = false) :
    let retryAt := (tryTake arrival now interval burst).1.retryAt
    (∀ time < retryAt, tryTake arrival time interval burst = (⟨false, retryAt⟩, arrival))
    ∧ (tryTake arrival retryAt interval burst).1.granted = true := by
  unfold tryTake at h ⊢
  split at h
  next hlt =>
    have htolerance : tolerance interval burst < arrival := by
      unfold saturatingAdd at hlt
      split at hlt <;> omega
    simp only [if_pos hlt]
    refine ⟨fun time htime => if_pos (Nat.lt_of_le_of_lt saturatingAdd_le (by omega)), ?_⟩
    rw [if_neg]
    rw [saturatingAdd_eq (by omega)]
    omega
  next => cases h

end Word

/-! ## What standing grants have moved -/

/-- What every spared run keeps: the arrival time, or the last call, is as many intervals past any time as
    grants stand from it on, and no window holds more grants than it may. -/
structure Paced (interval burst : Nat) (w : Word) : Prop where
  clocked : ∀ time ∈ w.standing, time ≤ w.clock
  moved : interval * w.standing.length ≤ w.arrival
  paced : ∀ start, 0 < w.since start → start + interval * w.since start ≤ max w.arrival w.clock
  bounded : ∀ start stop, w.within start stop ≤ burst + (stop - start) / interval

variable {interval burst : Nat} {w w' : Word}

/-- The grants from a time on are those from the first of them on. -/
theorem Word.exists_since {start : Nat} (h : 0 < w.since start) :
    ∃ time ∈ w.standing, start ≤ time ∧ w.since time = w.since start := by
  have hex : ∃ time, time ∈ w.standing ∧ start ≤ time := by
    obtain ⟨time, hmem, hle⟩ := List.countP_pos_iff.mp h
    exact ⟨time, hmem, of_decide_eq_true hle⟩
  obtain ⟨hmem, hle⟩ := Nat.find_spec hex
  refine ⟨Nat.find hex, hmem, hle, List.countP_congr fun time htime => ?_⟩
  rw [decide_eq_true_eq, decide_eq_true_eq]
  exact ⟨hle.trans, fun hstart => Nat.find_min' hex ⟨htime, hstart⟩⟩

theorem Word.within_le_since {start stop : Nat} : w.within start stop ≤ w.since start :=
  List.countP_mono_left fun _ _ h => decide_eq_true (of_decide_eq_true h).1

theorem Paced.take {now : Nat} (hinterval : 0 < interval) (hburst : 1 ≤ burst) (h : Paced interval burst w)
    (hcall : w.call interval burst (.take now) = some w') : Paced interval burst w' := by
  simp only [Word.call, Option.ite_none_right_eq_some, Option.some.injEq] at hcall
  obtain ⟨⟨hclock, htolerance, harrival⟩, rfl⟩ := hcall
  have hearly : saturatingAdd now (tolerance interval burst) = now + interval * (burst - 1) := by
    rw [tolerance_eq (by omega), saturatingAdd_eq htolerance]
  unfold tryTake
  split
  next hrefused =>
    -- nothing but the time of the last call changes
    refine ⟨fun time hmem => (h.clocked time hmem).trans hclock, h.moved, fun start hpos => ?_, h.bounded⟩
    have hpaced := h.paced start hpos
    show start + interval * w.since start ≤ max w.arrival now
    omega
  next hgranted =>
    rw [hearly, not_lt] at hgranted
    have hpaced : ∀ start, 0 < w.since start →
        start + interval * w.since start ≤ max w.arrival now := by
      intro start hpos
      have := h.paced start hpos
      omega
    refine ⟨?_, ?_, ?_, ?_⟩
    · intro time hmem
      rcases List.mem_cons.mp hmem with rfl | hmem
      · exact Nat.le_refl _
      · exact (h.clocked time hmem).trans hclock
    · have hmoved := h.moved
      show interval * (w.standing.length + 1) ≤ saturatingAdd (max w.arrival now) interval
      rw [saturatingAdd_eq harrival, Nat.mul_add, Nat.mul_one]
      omega
    · intro start hpos
      show start + interval * (now :: w.standing).countP _ ≤ max (saturatingAdd _ _) now
      replace hpos : 0 < (now :: w.standing).countP fun time => start ≤ time := hpos
      rw [saturatingAdd_eq harrival]
      by_cases hstart : start ≤ now
      · rw [List.countP_cons_of_pos (by simpa using hstart), Nat.mul_add, Nat.mul_one]
        change start + (interval * w.since start + interval) ≤ _
        rcases Nat.eq_zero_or_pos (w.since start) with hzero | hsince
        · rw [hzero]
          omega
        · have := hpaced start hsince
          omega
      · -- no grant was made later than the last call
        rw [List.countP_cons_of_neg (by simpa using hstart)] at hpos
        obtain ⟨time, hmem, hle⟩ := List.countP_pos_iff.mp hpos
        have hle : start ≤ time := of_decide_eq_true hle
        have := h.clocked time hmem
        omega
    · intro start stop
      show (now :: w.standing).countP _ ≤ _
      by_cases hin : start ≤ now ∧ now ≤ stop
      · rw [List.countP_cons_of_pos (by simpa using hin)]
        change w.within start stop + 1 ≤ _
        have hsince := @Word.within_le_since w start stop
        rcases Nat.eq_zero_or_pos (w.since start) with hzero | hpos
        · exact Nat.le_add_right_of_le (by omega)
        · have hlate := hpaced start hpos
          have hdiv := Nat.lt_mul_div_succ (stop - start) hinterval
          have hlt : interval * w.since start < interval * ((stop - start) / interval + burst) := by
            have hsplit : interval * burst = interval * (burst - 1) + interval := by
              rw [← Nat.mul_succ, Nat.succ_eq_add_one, Nat.sub_add_cancel hburst]
            rw [Nat.mul_add] at hdiv ⊢
            omega
          have := Nat.lt_of_mul_lt_mul_left hlt
          omega
      · rw [List.countP_cons_of_neg (by simpa using hin)]
        exact h.bounded start stop

theorem Paced.giveBack {index : Nat} (h : Paced interval burst w) (hspared : Spared interval w (.giveBack index))
    (hcall : w.call interval burst (.giveBack index) = some w') : Paced interval burst w' := by
  simp only [Word.call, Option.ite_none_right_eq_some, Option.some.injEq] at hcall
  obtain ⟨hindex, rfl⟩ := hcall
  have hperm := List.getElem_cons_eraseIdx_perm hindex
  have hlength : (w.standing.eraseIdx index).length + 1 = w.standing.length := hperm.length_eq
  have hmoved := h.moved
  rw [← hlength, Nat.mul_add, Nat.mul_one] at hmoved
  have hback : refund w.arrival interval = w.arrival - interval := if_pos (by omega)
  refine ⟨fun time hmem => h.clocked time (List.mem_of_mem_eraseIdx hmem), ?_, fun start hpos => ?_, ?_⟩
  · show interval * (w.standing.eraseIdx index).length ≤ refund w.arrival interval
    omega
  · show start + interval * (w.standing.eraseIdx index).countP _ ≤ max (refund w.arrival interval) w.clock
    replace hpos : 0 < (w.standing.eraseIdx index).countP fun time => start ≤ time := hpos
    have hcount : w.since start = List.countP (fun time => start ≤ time)
        (w.standing[index] :: w.standing.eraseIdx index) := (hperm.countP_eq _).symm
    by_cases hstart : start ≤ w.standing[index]
    · rw [List.countP_cons_of_pos (by simpa using hstart)] at hcount
      have hpaced := h.paced start (by omega)
      rw [hcount, Nat.mul_add, Nat.mul_one] at hpaced
      omega
    · rw [List.countP_cons_of_neg (by simpa using hstart)] at hcount
      -- what was given back lies before, so all that stand from here on were made after it
      rw [← hcount] at hpos ⊢
      obtain ⟨time, hmem, hle, hsame⟩ := Word.exists_since hpos
      have hlater : w.standing.getD index 0 < time := by
        rw [List.getD_eq_getElem?_getD, List.getElem?_eq_getElem hindex]
        show w.standing[index] < time
        omega
      have hleft := hspared time hmem hlater
      rw [hsame] at hleft
      omega
  · intro start stop
    exact (List.Sublist.countP_le (List.eraseIdx_sublist _ _)).trans (h.bounded start stop)

/-- Every spared run is paced. -/
theorem paced_run (hinterval : 0 < interval) (hburst : 1 ≤ burst)
    (h : (calls interval burst).Run (Spared interval) w) : Paced interval burst w := by
  refine @System.Run.invariant _ _ _ _ (fun w => Paced interval burst w) ?_ ?_ _ h
  · rintro _ rfl
    exact ⟨nofun, Nat.le_refl _, fun _ hpos => (nomatch hpos), fun _ _ => Nat.zero_le _⟩
  · intro s call s' _ hs hok hstep
    replace hstep : s.call interval burst call = some s' := hstep
    cases call with
    | take now => exact hs.take hinterval hburst hstep
    | giveBack index => exact hs.giveBack hok hstep

/-! ## Giving back what was regained -/

/-- Requests at once, of a word that has granted so many at this time: each is granted up to the burst. -/
theorem exec_takes {now count used : Nat} (harrival : w.arrival ≤ now + interval * used)
    (hclock : w.clock ≤ now) (hroom : now + interval * burst ≤ timeMax) (hcount : used + count ≤ burst) :
    ∃ later, (calls interval burst).exec w (List.replicate count (.take now)) = some later
      ∧ later.standing = List.replicate count now ++ w.standing := by
  induction count generalizing w used with
  | zero => exact ⟨w, rfl, rfl⟩
  | succ count ih =>
    have hearly : interval * used ≤ interval * (burst - 1) := Nat.mul_le_mul_left _ (by omega)
    have hmost : interval * (burst - 1) + interval = interval * burst := by
      rw [← Nat.mul_succ, Nat.succ_eq_add_one, Nat.sub_add_cancel (by omega)]
    have hgranted : tryTake w.arrival now interval burst = (⟨true, now⟩, max w.arrival now + interval) := by
      unfold tryTake
      rw [tolerance_eq (by omega), saturatingAdd_eq (by omega), saturatingAdd_eq (by omega),
        if_neg (by omega)]
    have hstep : (calls interval burst).step w (.take now)
        = some ⟨max w.arrival now + interval, now, now :: w.standing⟩ := by
      show w.call interval burst (.take now) = _
      rw [Word.call, if_pos ⟨hclock, by omega, by omega⟩]
      dsimp only
      rw [hgranted]
      rfl
    obtain ⟨later, hlater, hstanding⟩ := @ih ⟨max w.arrival now + interval, now, now :: w.standing⟩ (used + 1)
      (by dsimp only; rw [Nat.mul_add, Nat.mul_one]; omega) (Nat.le_refl _) (by omega)
    refine ⟨later, ?_, ?_⟩
    · rw [List.replicate_succ, System.exec, hstep]
      exact hlater
    · rw [hstanding, List.replicate_succ', List.append_assoc]
      rfl

/-- **Nothing less is enough**: a grant given back that is not spared lets too many through, as long as there
    is time left. -/
theorem exceeds_of_not_spared {index : Nat} (hinterval : 0 < interval) (h : Paced interval burst w)
    (hindex : index < w.standing.length) (hspared : ¬Spared interval w (.giveBack index))
    (hroom : ∀ time ∈ w.standing, time + interval * (w.standing.length + burst) ≤ timeMax) :
    ∃ acts later, (calls interval burst).exec w (.giveBack index :: acts) = some later
      ∧ ∃ start stop, burst + (stop - start) / interval < later.within start stop := by
  unfold Spared at hspared
  push Not at hspared
  obtain ⟨time, hmem, hlater, hleft⟩ := hspared
  rw [List.getD_eq_getElem?_getD, List.getElem?_eq_getElem hindex] at hlater
  replace hlater : w.standing[index] < time := hlater
  have hperm := List.getElem_cons_eraseIdx_perm hindex
  have hsince : (w.standing.eraseIdx index).countP (fun other => time ≤ other) = w.since time := by
    unfold Word.since
    rw [← hperm.countP_eq, List.countP_cons_of_neg (by simpa using hlater)]
  have hpos : 0 < w.since time := List.countP_pos_iff.mpr ⟨time, hmem, decide_eq_true (Nat.le_refl _)⟩
  have hmost : w.since time ≤ w.standing.length := List.countP_le_length
  have hmul := Nat.mul_le_mul_left interval hmost
  have hone := Nat.mul_le_mul_left interval hpos
  have htime := hroom time hmem
  rw [Nat.mul_add] at htime
  -- a burst just before the intervals of the grants from that time on have passed
  generalize hnow : time + interval * w.since time - 1 = now at *
  have hmoved := h.moved
  have hone' : interval * 1 ≤ interval * w.standing.length := Nat.mul_le_mul_left _ (by omega)
  have hback : refund w.arrival interval = w.arrival - interval := if_pos (by omega)
  have hstep : (calls interval burst).step w (.giveBack index)
      = some ⟨w.arrival - interval, w.clock, w.standing.eraseIdx index⟩ := by
    show w.call interval burst (.giveBack index) = _
    rw [Word.call, if_pos hindex, hback]
  obtain ⟨later, hexec, hstanding⟩ := @exec_takes interval burst
    ⟨w.arrival - interval, w.clock, w.standing.eraseIdx index⟩ now burst 0
    (by dsimp only; omega) (by dsimp only; omega) (by omega) (by omega)
  refine ⟨_, later, by rw [System.exec, hstep]; exact hexec, time, now, ?_⟩
  have hbefore : (w.standing.eraseIdx index).countP (fun other => time ≤ other ∧ other ≤ now)
      = w.since time := by
    rw [← hsince]
    refine List.countP_congr fun other hother => ?_
    have := h.clocked other (List.mem_of_mem_eraseIdx hother)
    simp only [decide_eq_true_eq]
    omega
  have hburst : (List.replicate burst now).countP (fun other => time ≤ other ∧ other ≤ now) = burst := by
    rw [List.countP_replicate, if_pos (decide_eq_true (by omega))]
  have hdiv : (now - time) / interval < w.since time := by
    rw [Nat.div_lt_iff_lt_mul hinterval, Nat.mul_comm]
    omega
  unfold Word.within
  rw [hstanding, List.countP_append, hburst]
  show _ < burst + (w.standing.eraseIdx index).countP _
  omega

/-- **The rate bound.** In every run whose refunds are spared, every closed window of length `d` holds at most
    `burst + d / interval` grants that stand; a refusal tells exactly when the same request is granted; and
    no weaker condition on refunds will do: one that is not spared can be followed by requests that break the
    bound. -/
theorem rate_bound (interval burst : Nat) (hinterval : 0 < interval) (hburst : 1 ≤ burst) :
    (∀ w, (calls interval burst).Run (Spared interval) w →
      ∀ start d, w.within start (start + d) ≤ burst + d / interval)
    ∧ (∀ arrival ≤ timeMax, ∀ now, (tryTake arrival now interval burst).1.granted = false →
      let retryAt := (tryTake arrival now interval burst).1.retryAt
      (∀ time < retryAt, tryTake arrival time interval burst = (⟨false, retryAt⟩, arrival))
      ∧ (tryTake arrival retryAt interval burst).1.granted = true)
    ∧ ∀ w, (calls interval burst).Run (Spared interval) w →
      ∀ index < w.standing.length, ¬Spared interval w (.giveBack index) →
        (∀ time ∈ w.standing, time + interval * (w.standing.length + burst) ≤ timeMax) →
        ∃ acts later, (calls interval burst).exec w (.giveBack index :: acts) = some later
          ∧ ∃ start d, burst + d / interval < later.within start (start + d) := by
  refine ⟨fun w hw start d => ?_, fun arrival harrival now h => tryTake_refused harrival h,
    fun w hw index hindex hspared hroom => ?_⟩
  · have hbounded := (paced_run hinterval hburst hw).bounded start (start + d)
    rwa [Nat.add_sub_cancel_left] at hbounded
  · obtain ⟨acts, later, hexec, start, stop, hlt⟩ :=
      exceeds_of_not_spared hinterval (paced_run hinterval hburst hw) hindex hspared hroom
    refine ⟨acts, later, hexec, start, stop - start, ?_⟩
    refine Nat.lt_of_lt_of_le hlt (List.countP_mono_left fun time _ hin => ?_)
    have := of_decide_eq_true hin
    exact decide_eq_true (by omega)

/-- A grant given back before the next one is made. -/
theorem rate_bound_given_back_at_once :
    (calls 10 1).exec {} [.take 0, .giveBack 0, .take 0, .take 10] = some ⟨20, 10, [10, 0]⟩
    ∧ ∀ start d, (⟨20, 10, [10, 0]⟩ : Word).within start (start + d) ≤ 1 + d / 10 := by
  refine ⟨by decide, (rate_bound 10 1 (by decide) (by decide)).1 _ ?_⟩
  have htaken : (calls 10 1).Run (Spared 10) ⟨10, 0, [0]⟩ := .step (.init rfl) trivial (a := .take 0) (by decide)
  have hback : (calls 10 1).Run (Spared 10) ⟨0, 0, []⟩ := by
    refine .step htaken (a := .giveBack 0) ?_ (by decide)
    intro time hmem hlt
    obtain rfl := List.mem_singleton.mp hmem
    cases hlt
  have hagain : (calls 10 1).Run (Spared 10) ⟨10, 0, [0]⟩ := .step hback trivial (a := .take 0) (by decide)
  exact .step hagain trivial (a := .take 10) (by decide)

/-- A grant made at 0 and given back at 10, when its interval has passed: two grants stand at once where the
    burst is one. -/
theorem late_refund_exceeds_burst :
    ∃ w, (calls 10 1).exec {} [.take 0, .take 10, .giveBack 1, .take 10] = some w
      ∧ w.standing = [10, 10] ∧ ¬w.within 10 (10 + 0) ≤ 1 + 0 / 10 :=
  ⟨⟨20, 10, [10, 10]⟩, by decide⟩

end KwaqueStorage.Runtime
