import KwaqueStorage.PageCache.Room

/-!
# Leading a load

`lead` starts the load of a place that has neither a value nor a load. If the cache remembers the place, what it
remembers passes to the new entry: the hook is copied and the remembered entry is retired, and then the new one is
admitted. A refusal by the admission, or for want of memory, comes after that, and what was remembered is gone.

The other operations are here as far as they change entries and places: what a cache can come to is `Reachable`.
-/

namespace KwaqueStorage.PageCache

variable {κ : Type}

/-- What a load is asked for with: what its value will hold, what the budget charges for the entry itself, the
    bytes its reader's reservation retains if the reader funds it, the reads still to come, and whether there is
    memory for the entry. -/
structure Request where
  backing : Nat
  object : Except Errc Nat
  funding : Option Nat := none
  readers : Nat := 0
  memory : Bool := true

/-- `cache_admission`. -/
structure Admission where
  funding : Option Nat := none
  cost : Nat := 0
  shell : Nat
  deriving DecidableEq

/-- The most a `byte_count` holds. -/
def maximumBytes : Nat := 18446744073709551615

namespace Cache

/-- Room is made where it is not there. -/
def roomFor (c : Cache κ) (need : Nat) : Cache κ := if c.capacity - c.used < need then c.makeRoom need else c

/-- A refusal that is counted. -/
def refuse (c : Cache κ) (code : Errc) : Cache κ × Except Errc Admission :=
  ({ c with refused := c.refused + 1 }, .error code)

/-- The bytes of an entry the cache funds, taken after room was made for them. -/
def charge (c : Cache κ) (cost shell : Nat) : Cache κ × Except Errc Admission :=
  -- a value as large as the small queue's share would push every other value out of it
  if c.maxSmall ≤ cost then c.refuse .outOfRange
  else
    let c := c.roomFor cost
    if c.capacity - c.used < cost then c.refuse .queueFull
    else ({ c with used := c.used + cost }, .ok { cost, shell })

/-- `page_cache::admit`. -/
def admitRequest (c : Cache κ) (request : Request) : Cache κ × Except Errc Admission :=
  if c.stopped then (c, .error .closed)
  else
    match request.object with
    | .error code => (c, .error code)
    | .ok shell =>
      let cost := request.backing + shell
      if maximumBytes < cost then c.refuse .outOfRange
      else
        match request.funding with
        | some retained =>
          if retained < cost then c.refuse .outOfRange else (c, .ok { funding := some retained, shell })
        | none => c.charge cost shell

/-- A new entry in its place, loading and held by its load. -/
def install (c : Cache κ) (place : κ) (request : Request) (hook : Hook) (admission : Admission) : Cache κ :=
  { c with
    entries := c.entries ++ [{
      id := c.next
      home := some place
      hook := hook.expect request.readers
      funding := admission.funding
      cost := admission.cost
      shell := admission.shell
      holders := 1 }]
    next := c.next + 1
    loads := c.loads + 1
    uncached := if admission.funding.isSome then c.uncached + 1 else c.uncached }

/-- `lead` once the place is free, with what was remembered of it. -/
def leadFree (c : Cache κ) (place : κ) (request : Request) (remembered : Hook) : Cache κ × Except Errc Nat :=
  match c.admitRequest request with
  | (c, .error code) => (c, .error code)
  | (c, .ok admission) =>
    -- an admission that no entry takes gives its bytes back
    if request.memory = false then ({ c with used := c.used - admission.cost }, .error .resourceExhausted)
    else (c.install place request remembered admission, .ok c.next)

/-! ## The other operations -/

/-- `cache_entry::release`. -/
def release (c : Cache κ) (id : Nat) : Cache κ :=
  match c.get id with
  | none => c
  | some e =>
    let c := c.update id fun e => { e with holders := e.holders - 1 }
    if e.holders = 1 ∧ e.home.isNone then c.destroy id else c

/-- `cache_entry::settle`, of a load that ended with a value or without, and the load's hold given up. -/
def settle (c : Cache κ) (id : Nat) (valued : Bool) : Cache κ :=
  match c.get id with
  | none => c
  | some e =>
    if e.loading = false then c
    else
      let c := c.update id fun e => { e with loading := false, valued }
      let c :=
        if valued = false ∨ e.funding.isSome ∨ c.stopped then c.retire id
        else if e.home.isSome then c.insert { e with loading := false, valued }
        else c
      c.release id

/-- `cache_entry::resize`. -/
def resize (c : Cache κ) (id : Nat) (backing : Nat) : Cache κ :=
  match c.get id with
  | none => c
  | some e =>
    let cost := backing + e.shell
    if e.loading = false then c
    else if maximumBytes < cost then { c with refused := c.refused + 1 }
    else
      match e.funding with
      | some retained => if retained < cost then { c with refused := c.refused + 1 } else c
      | none =>
        if cost ≤ e.cost then
          { c.update id fun e => { e with cost } with used := c.used - (e.cost - cost) }
        else if c.stopped then c
        else if c.maxSmall ≤ cost then { c with refused := c.refused + 1 }
        else
          let more := cost - e.cost
          let c := c.roomFor more
          if c.capacity - c.used < more then { c with refused := c.refused + 1 }
          else { c.update id fun e => { e with cost } with used := c.used + more }

/-! ## What holds of every cache -/

variable {c c' c'' : Cache κ} {id : Nat} {e e' : Entry κ} {place : κ}

theorem within_release (c : Cache κ) (id : Nat) : Within c (c.release id) := by
  unfold release
  split
  · exact .refl c
  · have h : Within c (c.update id fun e => { e with holders := e.holders - 1 }) :=
      within_update fun _ => ⟨rfl, rfl⟩
    dsimp only
    split
    · exact h.trans (shrinks_destroy _ id).within
    · exact h

theorem within_settle (c : Cache κ) (id : Nat) (valued : Bool) : Within c (c.settle id valued) := by
  unfold settle
  split
  · exact .refl c
  · split
    · exact .refl c
    · have h : Within c (c.update id fun e => { e with loading := false, valued }) :=
        within_update fun _ => ⟨rfl, rfl⟩
      dsimp only
      refine Within.trans ?_ (within_release _ id)
      split
      · exact h.trans (shrinks_retire _ id).within
      · split
        · exact h.trans (within_insert _ _)
        · exact h

theorem within_roomFor (c : Cache κ) (need : Nat) : Within c (c.roomFor need) := by
  unfold roomFor
  split
  · exact (shrinks_makeRoom need c).within
  · exact .refl c

theorem within_resize (c : Cache κ) (id backing : Nat) : Within c (c.resize id backing) := by
  have hpriced : ∀ (c : Cache κ) (cost : Nat), Within c (c.update id fun e => { e with cost }) :=
    fun c cost => within_update fun _ => ⟨rfl, rfl⟩
  unfold resize
  split
  · exact .refl c
  · dsimp only
    split
    · exact .refl c
    · split
      · exact { Within.refl c with }
      · split
        · split
          · exact { Within.refl c with }
          · exact .refl c
        · split
          · exact { hpriced c _ with }
          · split
            · exact .refl c
            · split
              · exact { Within.refl c with }
              · split
                · exact { within_roomFor c _ with }
                · exact { (within_roomFor c _).trans (hpriced _ _) with }

theorem within_charge (c : Cache κ) (cost shell : Nat) : Within c (c.charge cost shell).1 := by
  unfold charge
  split
  · exact { Within.refl c with }
  · dsimp only
    split
    · exact { within_roomFor c cost with }
    · exact { within_roomFor c cost with }

theorem within_admitRequest (c : Cache κ) (request : Request) : Within c (c.admitRequest request).1 := by
  unfold admitRequest
  split
  · exact .refl c
  · split
    · exact .refl c
    · dsimp only
      split
      · exact { Within.refl c with }
      · split
        · split
          · exact { Within.refl c with }
          · exact .refl c
        · exact within_charge c _ _

/-- What is left once an entry has been retired: the others in their places, and of it nothing in one. -/
theorem home_of_retire (hget : c.get e.id = some e) (hhome : e.home ≠ none)
    (hmem : e' ∈ (c.retire e.id).entries) : e'.home = none ∨ ∃ a ∈ c.entries, a.id ≠ e.id ∧ a.home = e'.home := by
  have hupdated : e' ∈ ((c.remove e).update e.id fun e => { e with home := none }).entries := by
    unfold retire at hmem
    rw [hget] at hmem
    simp only [Option.isNone_iff_eq_none, if_neg hhome] at hmem
    split at hmem
    · unfold destroy at hmem
      split at hmem
      · exact hmem
      · exact (List.mem_filter.mp hmem).1
    · exact hmem
  obtain ⟨b, hb, rfl⟩ := List.mem_map.mp hupdated
  rw [remove_entries] at hb
  obtain ⟨a, ha, rfl⟩ := List.mem_map.mp hb
  by_cases hid : a.id = e.id
  · left
    simp [hid]
  · right
    refine ⟨a, ha, hid, ?_⟩
    simp [hid]

namespace Sound

/-- An entry is found by its name. -/
theorem get_eq (h : c.Sound) (he : e ∈ c.entries) : c.get e.id = some e := by
  cases hget : c.get e.id with
  | none => exact absurd (decide_eq_true rfl) (List.find?_eq_none.mp hget e he)
  | some e' =>
    obtain ⟨he', hid⟩ := mem_of_get hget
    exact congrArg some (List.inj_on_of_nodup_map h.names he' he hid)

/-- No two entries are in one place. -/
theorem apart (h : c.Sound) (he : e ∈ c.entries) (he' : e' ∈ c.entries) (hhome : e.home = some place)
    (hhome' : e'.home = some place) : e = e' := by
  by_contra hne
  have hpair := List.pairwise_filterMap.mp h.homes
  have hsymm : Std.Symm fun a b : Entry κ =>
      ∀ k, a.home = some k → ∀ k', b.home = some k' → k ≠ k' :=
    ⟨fun a b hab k hk k' hk' => (hab k' hk' k hk).symm⟩
  exact hpair.forall he he' hne place hhome place hhome' rfl

end Sound

/-! ## The operations -/

variable [DecidableEq κ]

/-- The entry in a place. -/
def entryAt (c : Cache κ) (place : κ) : Option (Entry κ) := c.entries.find? fun e => decide (e.home = some place)

/-- `cache_slot::lead` and `cache_index::lead`: the name of the entry that loads, or why there is none. -/
def lead (c : Cache κ) (place : κ) (request : Request) : Cache κ × Except Errc Nat :=
  match c.entryAt place with
  | none => c.leadFree place request {}
  | some e =>
    if e.loading ∨ e.valued then (c, .error .alreadyExists)
    else
      -- what it remembers passes to the entry that replaces it
      (c.retire e.id).leadFree place request e.hook.copy

/-- What is done with a cache: loads are led, settled and priced, entries are used, held and let go of, places are
    dropped, and the cache is stopped. -/
inductive Op (κ : Type)
  | lead (place : κ) (request : Request)
  | settle (id : Nat) (valued : Bool)
  | resize (id : Nat) (backing : Nat)
  | touch (id : Nat)
  | hold (id : Nat)
  | release (id : Nat)
  | fetched (id : Nat)
  | drop (id : Nat)
  | stop

/-- One operation. -/
def perform (c : Cache κ) : Op κ → Cache κ
  | .lead place request => (c.lead place request).1
  | .settle id valued => c.settle id valued
  | .resize id backing => c.resize id backing
  | .touch id => c.update id fun e => { e with hook := e.hook.touch }
  | .hold id => c.update id fun e => { e with holders := e.holders + 1 }
  | .release id => c.release id
  | .fetched id => c.update id fun e => { e with fetched := true }
  | .drop id => c.retire id
  | .stop => { c with stopped := true }

/-- What a cache of some capacity can come to. -/
inductive Reachable : Cache κ → Prop
  | made (capacity : Nat) : Reachable (make capacity)
  | step {c : Cache κ} (op : Op κ) (h : Reachable c) : Reachable (c.perform op)

/-- A place that had no entry has none. -/
theorem Within.entryAt_none (h : Within c c') (hnone : c.entryAt place = none) : c'.entryAt place = none := by
  have hnot : place ∉ c.homes := by
    intro hmem
    obtain ⟨e, he, hhome⟩ := List.mem_filterMap.mp hmem
    exact List.find?_eq_none.mp hnone e he (decide_eq_true hhome)
  refine List.find?_eq_none.mpr fun e he hhome => hnot (h.homes.subset ?_)
  exact List.mem_filterMap.mpr ⟨e, he, of_decide_eq_true hhome⟩

theorem mem_of_entryAt (h : c.entryAt place = some e) : e ∈ c.entries ∧ e.home = some place := by
  have hhome := List.find?_some h
  exact ⟨List.mem_of_find?_eq_some h, of_decide_eq_true hhome⟩

namespace Sound

/-- An entry that is retired is out of its place, which no other has. -/
theorem entryAt_retire (h : c.Sound) (hat : c.entryAt place = some e) : (c.retire e.id).entryAt place = none := by
  obtain ⟨he, hhome⟩ := mem_of_entryAt hat
  refine List.find?_eq_none.mpr fun e' he' hhome' => ?_
  have hhome' := of_decide_eq_true hhome'
  rcases home_of_retire (h.get_eq he) (hhome ▸ nofun) he' with hnone | ⟨a, ha, hid, hsame⟩
  · exact nomatch hhome'.symm.trans hnone
  · exact hid (congrArg Entry.id (h.apart ha he (hsame.trans hhome') hhome))

theorem install (h : c.Sound) (hnone : c.entryAt place = none) (request : Request) (hook : Hook)
    (admission : Admission) : (c.install place request hook admission).Sound where
  names := by
    show ((c.entries ++ [_]).map Entry.id).Nodup
    rw [List.map_append]
    refine List.nodup_append.mpr ⟨h.names, List.nodup_singleton _, fun id hid id' hid' heq => ?_⟩
    rw [List.map_singleton, List.mem_singleton] at hid'
    exact Nat.ne_of_lt (h.fresh id hid) (heq.trans hid')
  fresh := by
    intro id hid
    have hid : id ∈ (c.entries ++ [_]).map Entry.id := hid
    rw [List.map_append, List.mem_append, List.map_singleton, List.mem_singleton] at hid
    rcases hid with hold | rfl
    · exact Nat.lt_succ_of_lt (h.fresh id hold)
    · exact Nat.lt_succ_self _
  homes := by
    show ((c.entries ++ [_]).filterMap Entry.home).Nodup
    rw [List.filterMap_append]
    refine List.nodup_append.mpr ⟨h.homes, List.nodup_singleton _, fun k hk k' hk' heq => ?_⟩
    have hk' : k' = place := List.mem_singleton.mp hk'
    obtain ⟨e, he, hhome⟩ := List.mem_filterMap.mp hk
    exact List.find?_eq_none.mp hnone e he (decide_eq_true (by rw [hhome, heq, hk']))

/-- A free place gets an entry or stays free. -/
theorem leadFree (h : c.Sound) (hnone : c.entryAt place = none) (request : Request) (remembered : Hook) :
    (c.leadFree place request remembered).1.Sound ∧
      ∀ code, (c.leadFree place request remembered).2 = .error code →
        (c.leadFree place request remembered).1.entryAt place = none := by
  have hwithin := within_admitRequest c request
  unfold Cache.leadFree
  split
  · next c₁ code hadmitted =>
    rw [hadmitted] at hwithin
    exact ⟨hwithin.sound h, fun _ _ => hwithin.entryAt_none hnone⟩
  · next c₁ admission hadmitted =>
    rw [hadmitted] at hwithin
    split
    · have hback : Within c { c₁ with used := c₁.used - admission.cost } := { hwithin with }
      exact ⟨hback.sound h, fun _ _ => hback.entryAt_none hnone⟩
    · exact ⟨(hwithin.sound h).install (hwithin.entryAt_none hnone) request remembered admission,
        fun _ hok => nomatch hok⟩

theorem lead (h : c.Sound) (place : κ) (request : Request) : (c.lead place request).1.Sound := by
  unfold Cache.lead
  split
  · next hnone => exact (h.leadFree hnone request _).1
  · next e hat =>
    split
    · exact h
    · exact (((shrinks_retire c e.id).within.sound h).leadFree (h.entryAt_retire hat) request _).1

theorem perform (h : c.Sound) (op : Op κ) : (c.perform op).Sound := by
  cases op with
  | lead place request => exact h.lead place request
  | settle id valued => exact (within_settle c id valued).sound h
  | resize id backing => exact (within_resize c id backing).sound h
  | touch id => exact Within.sound (within_update fun _ => ⟨rfl, rfl⟩) h
  | hold id => exact Within.sound (within_update fun _ => ⟨rfl, rfl⟩) h
  | release id => exact (within_release c id).sound h
  | fetched id => exact Within.sound (within_update fun _ => ⟨rfl, rfl⟩) h
  | drop id => exact (shrinks_retire c id).within.sound h
  | stop => exact ⟨h.names, h.fresh, h.homes⟩

end Sound

theorem Reachable.sound (h : Reachable c) : c.Sound := by
  induction h with
  | made capacity => exact Sound.made capacity
  | step op _ ih => exact ih.perform op

/-! ## A refused load -/

/-- The place has an entry that is only remembered. -/
def remembers (c : Cache κ) (place : κ) : Bool := (c.entryAt place).any fun e => !e.loading && !e.valued

/-- A load of the place that is admitted now is that of a value which returns: the ghost queue still remembers
    it. -/
def returning (c : Cache κ) (place : κ) : Bool :=
  (c.entryAt place).any fun e => !e.loading && !e.valued && c.ghostQueueContains e.hook

theorem returning_none (h : c.entryAt place = none) : c.returning place = false := by
  unfold returning
  rw [h]
  rfl

/-- **A refused load keeps what is in its place exactly when the place is not only remembered.** What is only
    remembered is retired before the new entry is admitted, and a refusal does not bring it back. -/
theorem refused_lead_keeps_iff (c : Cache κ) (hreachable : Reachable c) (place : κ) (request : Request)
    (c' : Cache κ) (code : Errc) (hrefused : c.lead place request = (c', .error code)) :
    (c'.entryAt place = c.entryAt place ∧ c'.returning place = c.returning place) ↔
      c.remembers place = false := by
  have hsound := hreachable.sound
  unfold lead at hrefused
  split at hrefused
  · next hnone =>
    -- nothing there before, and nothing after
    have hafter := (hsound.leadFree hnone request {}).2 code (congrArg Prod.snd hrefused)
    rw [hrefused] at hafter
    refine iff_of_true ⟨hafter.trans hnone.symm, (returning_none hafter).trans (returning_none hnone).symm⟩ ?_
    unfold remembers
    rw [hnone]
    rfl
  · next e hat =>
    split at hrefused
    · next hbusy =>
      -- a value or a load: nothing was touched
      cases hrefused
      refine iff_of_true ⟨rfl, rfl⟩ ?_
      unfold remembers
      rw [hat]
      rcases hbusy with hloading | hvalued
      · simp [hloading]
      · simp [hvalued]
    · next hidle =>
      rw [not_or, Bool.not_eq_true, Bool.not_eq_true] at hidle
      have hretired := (shrinks_retire c e.id).within.sound hsound
      have hafter := (hretired.leadFree (hsound.entryAt_retire hat) request _).2 code
        (congrArg Prod.snd hrefused)
      rw [hrefused] at hafter
      refine iff_of_false (fun hkept => ?_) ?_
      · cases hafter.symm.trans (hkept.1.trans hat)
      · unfold remembers
        rw [hat]
        simp [hidle.1, hidle.2]

/-- A run from an empty cache. -/
def run (capacity : Nat) (ops : List (Op κ)) : Cache κ := ops.foldl perform (make capacity)

theorem reachable_run (capacity : Nat) (ops : List (Op κ)) : Reachable (run capacity ops) := by
  unfold run
  induction ops using List.reverseRecOn with
  | nil => exact .made capacity
  | append_singleton ops op ih =>
    rw [List.foldl_append]
    exact .step op ih

/-- A load of nine bytes. -/
def exampleRequest : Request := ⟨8, .ok 1, none, 0, true⟩

/-- Two loads of nine bytes that are done and nine in flight: one byte is left. -/
def exampleFull : Cache Nat :=
  run 100 ([.lead 0 exampleRequest, .settle 0 true, .lead 1 exampleRequest, .settle 1 true]
    ++ (List.range 9).map fun i => .lead (i + 2) exampleRequest)

/-- The first value has gone for the room of one more load, and is remembered. -/
def exampleRemembered : Cache Nat :=
  let c := (evict {} exampleFull).2.2
  { c with used := c.used + 9 }.install 11 exampleRequest {} { cost := 9, shell := 1 }

theorem exampleFull_makeRoom : makeRoom 9 exampleFull = (evict {} exampleFull).2.2 := by
  have hnone : forgetExpired exampleFull.effortCap {} exampleFull = ({}, exampleFull) := by decide +kernel
  unfold makeRoom
  rw [hnone]
  show roomLoop 9 {} exampleFull = _
  rw [roomLoop, if_neg (by decide +kernel), dif_pos (by decide +kernel), roomLoop, if_pos (by decide +kernel)]

theorem exampleRemembered_eq : exampleFull.lead 11 exampleRequest = (exampleRemembered, .ok 11) := by
  have hroom : exampleFull.roomFor 9 = (evict {} exampleFull).2.2 := by
    unfold roomFor
    rw [if_pos (by decide +kernel), exampleFull_makeRoom]
  have hcharge : exampleFull.charge 9 1 = ({ (evict {} exampleFull).2.2 with
      used := (evict {} exampleFull).2.2.used + 9 }, .ok { cost := 9, shell := 1 }) := by
    unfold charge
    rw [if_neg (by decide +kernel), hroom]
    exact if_neg (by decide +kernel)
  have hadmitted : exampleFull.admitRequest exampleRequest = exampleFull.charge 9 1 := by
    unfold admitRequest
    rw [if_neg (by decide +kernel)]
    exact if_neg (by decide +kernel)
  have hfree : exampleFull.entryAt 11 = none := by decide +kernel
  unfold lead
  rw [hfree]
  unfold leadFree
  rw [hadmitted, hcharge]
  rfl

theorem exampleRemembered_reachable : Reachable exampleRemembered := by
  have hstep : Reachable (exampleFull.perform (.lead 11 exampleRequest)) := .step _ (reachable_run _ _)
  have hperform : exampleFull.perform (.lead 11 exampleRequest) = exampleRemembered :=
    congrArg Prod.fst exampleRemembered_eq
  rwa [hperform] at hstep

/-- A load refused as too large has made the cache forget a value that was to return. -/
theorem refused_lead_forgets :
    ¬ ∀ (c : Cache Nat), Reachable c → ∀ (place : Nat) (request : Request) (c' : Cache Nat) (code : Errc),
      c.lead place request = (c', .error code) →
        c'.entryAt place = c.entryAt place ∧ c'.returning place = c.returning place := by
  intro h
  have hkept := h exampleRemembered exampleRemembered_reachable 0 ⟨20, .ok 1, none, 0, true⟩ _ .outOfRange
    (Prod.ext rfl (by decide +kernel))
  exact absurd hkept.2 (by decide +kernel)

theorem refused_lead_keeps_iff_new :
    exampleRemembered.remembers 40 = false ∧
      (exampleRemembered.lead 40 ⟨20, .ok 1, none, 0, true⟩).1.entryAt 40 = exampleRemembered.entryAt 40 := by
  have hnot : exampleRemembered.remembers 40 = false := by decide +kernel
  refine ⟨hnot, ((refused_lead_keeps_iff exampleRemembered exampleRemembered_reachable 40
    ⟨20, .ok 1, none, 0, true⟩ _ .outOfRange (Prod.ext rfl ?_)).mpr hnot).1⟩
  decide +kernel

end Cache

end KwaqueStorage.PageCache
