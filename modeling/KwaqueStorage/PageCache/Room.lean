import KwaqueStorage.PageCache.Policy

/-!
# Making room

Whatever a request evicts or forgets, no place gets an entry by it and nothing more is charged: `Shrinks`. Each
step of the policy shrinks the cache, and so does every loop of them, which is also why making room ends.
-/

namespace KwaqueStorage.PageCache

variable {κ : Type}

namespace Cache

variable {c c' c'' : Cache κ} {id : Nat} {e : Entry κ} {spent spent' : Effort}

/-- The places that have an entry. -/
def homes (c : Cache κ) : List κ := c.entries.filterMap Entry.home

/-- The names of the entries. -/
def names (c : Cache κ) : List Nat := c.entries.map Entry.id

/-- **A cache with less in it**: there is no new entry, no place got one, nothing more is charged, and
    no more effort is granted. -/
structure Shrinks (c c' : Cache κ) : Prop where
  used : c'.used ≤ c.used
  names : c'.names.Sublist c.names
  homes : c'.homes.Sublist c.homes
  effortCap : c'.effortCap = c.effortCap
  next : c'.next = c.next

namespace Shrinks

theorem refl (c : Cache κ) : Shrinks c c :=
  ⟨Nat.le_refl _, List.Sublist.refl _, List.Sublist.refl _, rfl, rfl⟩

theorem trans (h : Shrinks c c') (h' : Shrinks c' c'') : Shrinks c c'' :=
  ⟨h'.used.trans h.used, h'.names.trans h.names, h'.homes.trans h.homes,
    h'.effortCap.trans h.effortCap, h'.next.trans h.next⟩

end Shrinks

variable {f : Entry κ → Entry κ}

/-- An entry changed in its place. -/
theorem homes_update (hf : ∀ e, (f e).home = e.home) : (c.update id f).homes = c.homes := by
  show (c.entries.map _).filterMap Entry.home = c.entries.filterMap Entry.home
  rw [List.filterMap_map]
  congr 1
  funext e
  show (if e.id = id then f e else e).home = e.home
  split
  · exact hf e
  · rfl

/-- An entry taken out of its place. -/
theorem homes_unlink : (c.update id fun e => { e with home := none }).homes.Sublist c.homes := by
  unfold homes update
  induction c.entries with
  | nil => exact .slnil
  | cons e rest ih =>
    rw [List.map_cons, List.filterMap_cons, List.filterMap_cons]
    split
    · split
      · exact ih
      · exact ih.cons _
    · next k hk =>
      have hhome : e.home = some k := by
        by_cases hid : e.id = id
        · rw [if_pos hid] at hk
          cases hk
        · rwa [if_neg hid] at hk
      rw [hhome]
      exact ih.cons_cons _

theorem names_update (hf : ∀ e, (f e).id = e.id) : (c.update id f).names = c.names := by
  show (c.entries.map _).map Entry.id = c.entries.map Entry.id
  rw [List.map_map]
  refine List.map_congr_left fun e _ => ?_
  show (if e.id = id then f e else e).id = e.id
  split
  · exact hf e
  · rfl

theorem names_unlink : (c.update id fun e => { e with home := none }).names = c.names :=
  names_update fun _ => rfl

theorem shrinks_update (hf : ∀ e, (f e).home = e.home ∧ (f e).id = e.id) :
    Shrinks c (c.update id f) :=
  { Shrinks.refl c with
    homes := by rw [homes_update fun e => (hf e).1]
    names := by rw [names_update fun e => (hf e).2] }

theorem shrinks_destroy (c : Cache κ) (id : Nat) : Shrinks c (c.destroy id) := by
  unfold destroy
  split
  · exact .refl c
  · exact { Shrinks.refl c with
      used := Nat.sub_le _ _
      names := List.filter_sublist.map _
      homes := List.filter_sublist.filterMap _ }

theorem shrinks_remove (c : Cache κ) (e : Entry κ) : Shrinks c (c.remove e) := by
  have hupdate : Shrinks c (c.update e.id fun e => { e with hook := { e.hook with location := .none } }) :=
    shrinks_update fun _ => ⟨rfl, rfl⟩
  unfold remove
  dsimp only
  cases e.hook.location with
  | none => exact hupdate
  | main => exact { hupdate with }
  | small => exact { hupdate with }
  | ghost => exact { hupdate with }

theorem shrinks_retire (c : Cache κ) (id : Nat) : Shrinks c (c.retire id) := by
  unfold retire
  split
  · exact .refl c
  · next e _ =>
    split
    · exact .refl c
    · have hout : Shrinks c ((c.remove e).update id fun e => { e with home := none }) :=
        (shrinks_remove c e).trans
          { Shrinks.refl (c.remove e) with homes := homes_unlink, names := by rw [names_unlink] }
      dsimp only
      split
      · exact hout.trans (shrinks_destroy _ id)
      · exact hout

theorem shrinks_evictedFrom (c : Cache κ) (e : Entry κ) (queue : Queue) : Shrinks c (c.evictedFrom e queue) := by
  cases queue with
  | small =>
    have hupdate : Shrinks c (c.update e.id fun e => { e with valued := false, cost := e.shell }) :=
      shrinks_update fun _ => ⟨rfl, rfl⟩
    exact { hupdate with used := Nat.sub_le _ _ }
  | main =>
    have hcount : Shrinks c { c with evicted := c.evicted + 1 } := { Shrinks.refl c with }
    exact hcount.trans (shrinks_retire _ e.id)
  | ghost => exact shrinks_retire c e.id

theorem shrinks_turn (c : Cache κ) (id : Nat) (awaited : Bool) : Shrinks c (c.turn id awaited) := by
  refine shrinks_update fun e => ?_
  cases awaited <;> exact ⟨rfl, rfl⟩

theorem shrinks_takeMain (c : Cache κ) (e : Entry κ) (main : List Nat) : Shrinks c (c.takeMain e main) := by
  have hunlink : Shrinks c (c.update e.id fun e => { e with hook := { e.hook with location := .none } }) :=
    shrinks_update fun _ => ⟨rfl, rfl⟩
  have hout : Shrinks c
      { c.update e.id fun e => { e with hook := { e.hook with location := .none } } with main } := { hunlink with }
  exact { hout.trans (shrinks_evictedFrom _ _ .main) with }

theorem shrinks_promote (c : Cache κ) (e : Entry κ) (small : List Nat) : Shrinks c (c.promote e small) := by
  have hupdate : Shrinks c (c.update e.id fun e => { e with hook := { e.hook with freq := 0, location := .main } }) :=
    shrinks_update fun _ => ⟨rfl, rfl⟩
  exact { hupdate with }

theorem shrinks_takeSmall (c : Cache κ) (e : Entry κ) (small : List Nat) : Shrinks c (c.takeSmall e small) := by
  have hupdate : Shrinks (c.evictedFrom e .small) ((c.evictedFrom e .small).update e.id fun e' =>
      { e' with hook := { e'.hook with
        location := .ghost, ghostInsertionTime := some (c.evictedFrom e .small).ghostAge } }) :=
    shrinks_update fun _ => ⟨rfl, rfl⟩
  exact { (shrinks_evictedFrom c e .small).trans hupdate with }

/-- Evicting takes away, and is not forgetting. -/
theorem evictMain_spec (cap : Nat) (passed rest : List Nat) (spent : Effort) (c : Cache κ) :
    Shrinks c (evictMain cap passed rest spent c).2.2
      ∧ (evictMain cap passed rest spent c).2.1.forgotten = spent.forgotten := by
  fun_induction evictMain cap passed rest spent c with
  | case1 passed spent c => exact ⟨{ Shrinks.refl c with }, rfl⟩
  | case2 => exact ⟨{ Shrinks.refl _ with }, rfl⟩
  | case3 _ _ _ _ _ _ _ ih => exact ih
  | case4 _ spent c id _ e _ awaited _ _ =>
    have hturn : Shrinks c (c.turn id awaited) := shrinks_turn c id awaited
    exact ⟨{ hturn with }, rfl⟩
  | case5 _ _ _ _ _ _ _ _ _ _ _ _ ih => exact ⟨(shrinks_turn _ _ _).trans ih.1, ih.2⟩
  | case6 => exact ⟨shrinks_takeMain _ _ _, rfl⟩
  | case7 _ _ _ _ _ _ _ _ _ _ _ ih => exact ih

theorem evictSmall_spec (cap : Nat) (passed rest : List Nat) (spent : Effort) (c : Cache κ) :
    Shrinks c (evictSmall cap passed rest spent c).2.2
      ∧ (evictSmall cap passed rest spent c).2.1.forgotten = spent.forgotten := by
  fun_induction evictSmall cap passed rest spent c with
  | case1 passed spent c => exact ⟨{ Shrinks.refl c with }, rfl⟩
  | case2 => exact ⟨{ Shrinks.refl _ with }, rfl⟩
  | case3 _ _ _ _ _ _ _ ih => exact ih
  | case4 passed id rest spent c _ e _ _ c₁ spent₁ _ spent₂ c₂ hmain =>
    have hevicts := evictMain_spec cap [] c₁.main spent₁ c₁
    rw [hmain] at hevicts
    exact ⟨{ (shrinks_promote c e (passed ++ rest)).trans hevicts.1 with }, hevicts.2⟩
  | case5 passed id rest spent c _ e _ _ c₁ spent₁ _ spent₂ c₂ hmain ih =>
    have hevicts := evictMain_spec cap [] c₁.main spent₁ c₁
    rw [hmain] at hevicts
    exact ⟨((shrinks_promote c e (passed ++ rest)).trans hevicts.1).trans ih.1, ih.2.trans hevicts.2⟩
  | case6 passed id rest spent c _ e _ _ c₁ spent₁ _ ih =>
    exact ⟨(shrinks_promote c e (passed ++ rest)).trans ih.1, ih.2⟩
  | case7 => exact ⟨shrinks_takeSmall _ _ _, rfl⟩
  | case8 _ _ _ _ _ _ _ _ _ _ ih => exact ih

theorem evict_spec (spent : Effort) (c : Cache κ) :
    Shrinks c (evict spent c).2.2 ∧ (evict spent c).2.1.forgotten = spent.forgotten := by
  unfold evict
  dsimp only
  split
  · have hfirst := evictSmall_spec c.effortCap [] c.small spent c
    split
    · next heq => rwa [heq] at hfirst
    · next spent' c' heq =>
      rw [heq] at hfirst
      have hsecond := evictMain_spec c'.effortCap [] c'.main spent' c'
      exact ⟨hfirst.1.trans hsecond.1, hsecond.2.trans hfirst.2⟩
  · have hfirst := evictMain_spec c.effortCap [] c.main spent c
    split
    · next heq => rwa [heq] at hfirst
    · next spent' c' heq =>
      rw [heq] at hfirst
      have hsecond := evictSmall_spec c'.effortCap [] c'.small spent' c'
      exact ⟨hfirst.1.trans hsecond.1, hsecond.2.trans hfirst.2⟩

theorem shrinks_forget (c : Cache κ) (id : Nat) : Shrinks c (c.forget id) := by
  have hupdate : Shrinks c (c.update id fun e => { e with hook := { e.hook with location := .none } }) :=
    shrinks_update fun _ => ⟨rfl, rfl⟩
  have hout : Shrinks c { c.update id fun e => { e with hook := { e.hook with location := .none } } with
      ghost := c.ghost.erase id } := { hupdate with }
  unfold forget
  dsimp only
  split
  · exact hout
  · split
    · exact hout.trans (shrinks_evictedFrom _ _ .ghost)
    · exact hout

theorem shrinks_forgetExpired : ∀ (more : Nat) (spent : Effort) (c : Cache κ),
    Shrinks c (forgetExpired more spent c).2
  | 0, _, c => .refl c
  | more + 1, spent, c => by
    unfold forgetExpired
    split
    · exact .refl c
    · split
      · exact .refl c
      · exact (shrinks_forget c _).trans (shrinks_forgetExpired more _ _)

theorem forgetOldest_spec (h : forgetOldest spent c = some (spent', c')) :
    Shrinks c c' ∧ spent'.forgotten = spent.forgotten + 1 ∧ spent.forgotten < c.effortCap := by
  unfold forgetOldest at h
  split at h
  · cases h
  · split at h
    · cases h
    · next hcap =>
      cases h
      exact ⟨shrinks_forget c _, rfl, Nat.not_le.mp hcap⟩

/-- The loop of `cache_account::make_room`. An eviction of a value that holds nothing frees nothing; then, and
    when nothing could be evicted, what is only remembered gives way. -/
def roomLoop (need : Nat) (spent : Effort) (c : Cache κ) : Cache κ :=
  if need ≤ c.capacity - c.used then c
  else if _hfrees : (evict spent c).1 = true ∧ (evict spent c).2.2.used ≠ c.used then
    roomLoop need (evict spent c).2.1 (evict spent c).2.2
  else
    match _hforget : forgetOldest (evict spent c).2.1 (evict spent c).2.2 with
    | none => (evict spent c).2.2
    | some (spent', c') => roomLoop need spent' c'
termination_by (c.effortCap - spent.forgotten, c.used)
decreasing_by
  · obtain ⟨hshrinks, hkept⟩ := evict_spec spent c
    rw [hkept, hshrinks.effortCap]
    exact Prod.Lex.right _ (Nat.lt_of_le_of_ne hshrinks.used _hfrees.2)
  · obtain ⟨hshrinks, hkept⟩ := evict_spec spent c
    obtain ⟨hshrinks', hforgotten, hlt⟩ := forgetOldest_spec _hforget
    rw [hkept] at hforgotten hlt
    rw [hshrinks.effortCap] at hlt
    refine Prod.Lex.left _ _ ?_
    rw [hshrinks'.effortCap, hshrinks.effortCap, hforgotten]
    omega

/-- `cache_account::make_room`. -/
def makeRoom (need : Nat) (c : Cache κ) : Cache κ :=
  let forgotten := forgetExpired c.effortCap {} c
  roomLoop need forgotten.1 forgotten.2

theorem shrinks_roomLoop (need : Nat) (spent : Effort) (c : Cache κ) : Shrinks c (roomLoop need spent c) := by
  fun_induction roomLoop need spent c with
  | case1 spent c _ => exact .refl c
  | case2 spent c _ _ ih => exact (evict_spec spent c).1.trans ih
  | case3 spent c _ _ _ => exact (evict_spec spent c).1
  | case4 spent c _ _ spent' c' hforget ih =>
    exact ((evict_spec spent c).1.trans (forgetOldest_spec hforget).1).trans ih

/-- **Making room only takes away.** -/
theorem shrinks_makeRoom (need : Nat) (c : Cache κ) : Shrinks c (makeRoom need c) :=
  (shrinks_forgetExpired c.effortCap {} c).trans (shrinks_roomLoop need _ _)

/-! ## Names and places -/

/-- **The places and the names are distinct.** -/
structure Sound (c : Cache κ) : Prop where
  names : c.names.Nodup
  fresh : ∀ id ∈ c.names, id < c.next
  homes : c.homes.Nodup

/-- Nothing new: neither an entry nor one in a place. -/
structure Within (c c' : Cache κ) : Prop where
  names : c'.names.Sublist c.names
  homes : c'.homes.Sublist c.homes
  next : c'.next = c.next

theorem Shrinks.within (h : Shrinks c c') : Within c c' := ⟨h.names, h.homes, h.next⟩

namespace Within

theorem refl (c : Cache κ) : Within c c := (Shrinks.refl c).within

theorem trans (h : Within c c') (h' : Within c' c'') : Within c c'' :=
  ⟨h'.names.trans h.names, h'.homes.trans h.homes, h'.next.trans h.next⟩

theorem sound (h : Within c c') (hsound : c.Sound) : c'.Sound where
  names := hsound.names.sublist h.names
  fresh := by
    intro id hid
    rw [h.next]
    exact hsound.fresh id (h.names.subset hid)
  homes := hsound.homes.sublist h.homes

end Within

theorem within_update (hf : ∀ e, (f e).home = e.home ∧ (f e).id = e.id) :
    Within c (c.update id f) := (shrinks_update hf).within

theorem within_insert (c : Cache κ) (e : Entry κ) : Within c (c.insert e) := by
  unfold insert
  split
  · have h : Within c (c.update e.id fun e =>
        { e with hook := { e.hook with turns := 0, ghostInsertionTime := none, location := .main } }) :=
      within_update fun _ => ⟨rfl, rfl⟩
    exact { h with }
  · have h : Within c (c.update e.id fun e => { e with hook := { e.hook with turns := 0, location := .small } }) :=
      within_update fun _ => ⟨rfl, rfl⟩
    exact { h with }

theorem Sound.made (capacity : Nat) : (make capacity : Cache κ).Sound :=
  ⟨List.nodup_nil, (fun _ h => nomatch h), List.nodup_nil⟩

theorem mem_of_get (h : c.get id = some e) : e ∈ c.entries ∧ e.id = id := by
  have hid := List.find?_some h
  exact ⟨List.mem_of_find?_eq_some h, of_decide_eq_true hid⟩

theorem remove_entries (c : Cache κ) (e : Entry κ) :
    (c.remove e).entries =
      (c.update e.id fun e => { e with hook := { e.hook with location := .none } }).entries := by
  unfold remove
  dsimp only
  cases e.hook.location <;> rfl

end Cache

end KwaqueStorage.PageCache
