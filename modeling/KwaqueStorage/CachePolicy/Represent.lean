import KwaqueStorage.CachePolicy.Moves

/-!
# What the policy's fields say of its queues

Four things are kept: an entry is in the queue its location names, once, and in no other; the sizes are what
the entries of their queues cost together, in 64 bits; the count of the ghost queue is its length; and the
times of the ghost queue do not decrease from its front to its back. The last one holds while the age of the
ghost queue, all that ever left the small queue, has not wrapped.
-/

namespace KwaqueStorage.CachePolicy

open Lib Relation
open PageCache (Hook Location Queue Effort)
open Function (update update_of_ne update_self)

variable {ι : Type}

/-! ## Sizes -/

/-- What entries cost together. -/
def weight (cost : ι → Nat) (queue : List ι) : Nat := (queue.map cost).sum

variable {cost : ι → Nat}

theorem weight_append {queue queue' : List ι} :
    weight cost (queue ++ queue') = weight cost queue + weight cost queue' := by
  unfold weight
  rw [List.map_append, List.sum_append]

theorem weight_snoc {queue : List ι} {id : ι} :
    weight cost (queue ++ [id]) = weight cost queue + cost id := by
  rw [weight_append]
  unfold weight
  rw [List.map_singleton, List.sum_singleton]

theorem weight_split {passed rest : List ι} {id : ι} :
    weight cost (passed ++ id :: rest) = weight cost (passed ++ rest) + cost id := by
  rw [weight_append, weight_append]
  unfold weight
  rw [List.map_cons, List.sum_cons]
  omega

theorem weight_perm {queue queue' : List ι} (h : queue.Perm queue') :
    weight cost queue = weight cost queue' := (h.map cost).sum_eq

theorem wrap_add {n m : Nat} : wrap (wrap n + m) = wrap (n + m) := by
  unfold wrap
  omega

theorem less_wrap {n m : Nat} : less (wrap (n + m)) m = wrap n := by
  unfold less wrap
  omega

theorem wrap_of_lt {n : Nat} (h : n < 2 ^ 64) : wrap n = n := Nat.mod_eq_of_lt h

variable [DecidableEq ι]

theorem weight_erase {queue : List ι} {id : ι} (h : id ∈ queue) :
    weight cost queue = weight cost (queue.erase id) + cost id := by
  rw [weight_perm (List.perm_cons_erase h)]
  unfold weight
  rw [List.map_cons, List.sum_cons]
  omega

/-- Only the costs of the entries themselves matter. -/
theorem weight_update {queue : List ι} {id : ι} (h : id ∉ queue) {to_ : Nat} :
    weight (update cost id to_) queue = weight cost queue := by
  unfold weight
  refine congrArg List.sum (List.map_congr_left fun other hmem => ?_)
  have hne : other ≠ id := by
    rintro rfl
    exact h hmem
  exact update_of_ne hne ..

/-! ## Links -/

/-- Entries are linked as their locations say, and once. -/
def Linked (locations : ι → Location) (queues : Location → List ι) : Prop :=
  ∀ at_, at_ ≠ .none → ∀ id, (queues at_).count id = if locations id = at_ then 1 else 0

namespace Linked

variable {locations locations' : ι → Location} {queues queues' : Location → List ι} {id : ι}

theorem mem_iff (h : Linked locations queues) (at_ : Location) (hat : at_ ≠ .none) : id ∈ queues at_ ↔ locations id = at_ := by
  rw [← List.count_pos_iff, h at_ hat id]
  split
  next heq => exact iff_of_true Nat.one_pos heq
  next hne => exact iff_of_false (Nat.lt_irrefl 0) hne

theorem nodup (h : Linked locations queues) (at_ : Location) (hat : at_ ≠ .none) : (queues at_).Nodup := by
  rw [List.nodup_iff_count_le_one]
  intro id
  rw [h at_ hat id]
  split
  next => exact Nat.le_refl 1
  next => exact Nat.zero_le 1

/-- A queue the entry is not in. -/
theorem erase_of_ne (h : Linked locations queues) (at_ : Location) (hat : at_ ≠ .none) (hne : locations id ≠ at_) :
    (queues at_).erase id = queues at_ :=
  List.erase_of_not_mem fun hmem => hne ((h.mem_iff at_ hat).mp hmem)

/-- The queue it is in, without it. -/
theorem erase_of_split (h : Linked locations queues) (at_ : Location) (hat : at_ ≠ .none) {passed rest : List ι}
    (hqueue : queues at_ = passed ++ id :: rest) : (queues at_).erase id = passed ++ rest := by
  have hnodup := h.nodup at_ hat
  rw [hqueue] at hnodup ⊢
  have hnot : id ∉ passed := fun hmem =>
    (List.nodup_append.mp hnodup).2.2 id hmem id (List.mem_cons_self ..) rfl
  rw [List.erase_append_right _ hnot, List.erase_cons_head]

theorem at_of_split (h : Linked locations queues) (at_ : Location) (hat : at_ ≠ .none) {passed rest : List ι}
    (hqueue : queues at_ = passed ++ id :: rest) : locations id = at_ := by
  rw [← h.mem_iff at_ hat, hqueue]
  exact List.mem_append_right _ (List.mem_cons_self ..)

/-- **One entry goes elsewhere**: it leaves the queue it was in for the one its location names now. -/
theorem relocate (h : Linked locations queues) (hothers : ∀ other, other ≠ id → locations' other = locations other)
    (hqueues : ∀ at_, at_ ≠ .none → (queues' at_).Perm
      ((queues at_).erase id ++ if locations' id = at_ then [id] else [])) : Linked locations' queues' := by
  intro at_ hat other
  rw [(hqueues at_ hat).count_eq, List.count_append]
  by_cases heq : other = id
  · have hgone : ((queues at_).erase id).count id = 0 :=
      List.count_eq_zero.mpr ((h.nodup at_ hat).not_mem_erase)
    rw [heq, hgone]
    split
    next => rw [List.count_singleton_self]
    next => rw [List.count_nil]
  · have hnone : (if locations' id = at_ then [id] else []).count other = 0 := by
      refine List.count_eq_zero.mpr ?_
      split
      next => exact fun hmem => heq (List.mem_singleton.mp hmem)
      next => exact List.not_mem_nil
    rw [List.count_erase_of_ne heq, h at_ hat other, hothers other heq, hnone, Nat.add_zero]

/-- The queues are in another order. -/
theorem of_perm (h : Linked locations queues) (hlocations : ∀ id, locations' id = locations id)
    (hqueues : ∀ at_, at_ ≠ .none → (queues' at_).Perm (queues at_)) : Linked locations' queues' := by
  intro at_ hat id
  rw [(hqueues at_ hat).count_eq, h at_ hat id, hlocations id]

end Linked

namespace Policy

/-- The queue of a location. -/
def queue (p : Policy ι) : Location → List ι
  | .none => []
  | .small => p.small
  | .main => p.main
  | .ghost => p.ghost

/-- Where an entry says it is. -/
def location (p : Policy ι) (id : ι) : Location := (p.hooks id).location

/-- **The fields say what the queues hold.** -/
structure Represents (p : Policy ι) : Prop where
  linked : Linked p.location p.queue
  small : p.smallSize = wrap (weight p.cost p.small)
  main : p.mainSize = wrap (weight p.cost p.main)
  ghost : p.ghostEntries = p.ghost.length

section Operations

variable {p p' : Policy ι} {id : ι} {passed rest : List ι} {hook : Hook}

theorem represents_make (config : Config) : (make config : Policy ι).Represents := by
  refine ⟨?_, rfl, rfl, rfl⟩
  intro at_ hat id
  have hnot : (make config : Policy ι).location id ≠ at_ := Ne.symm hat
  rw [if_neg hnot]
  cases at_ <;> exact List.count_nil

theorem location_update (hhooks : p'.hooks = update p.hooks id hook) (other : ι) (hne : other ≠ id) :
    p'.location other = p.location other := by
  unfold location
  rw [hhooks, update_of_ne hne]

theorem location_self (hhooks : p'.hooks = update p.hooks id hook) : p'.location id = hook.location := by
  unfold location
  rw [hhooks, update_self]

/-- An entry's hook changes and its location does not. -/
theorem location_same (hhooks : p'.hooks = update p.hooks id hook) (hsame : hook.location = p.location id)
    (other : ι) : p'.location other = p.location other := by
  by_cases heq : other = id
  · rw [heq, location_self hhooks, hsame]
  · exact location_update hhooks other heq

/-- **An entry is in one queue less and one more**, in any order. -/
theorem Represents.relinked (h : p.Represents) (hhooks : p'.hooks = update p.hooks id hook)
    (hsmall : p'.small.Perm (p.small.erase id ++ if hook.location = .small then [id] else []))
    (hmain : p'.main.Perm (p.main.erase id ++ if hook.location = .main then [id] else []))
    (hghost : p'.ghost.Perm (p.ghost.erase id ++ if hook.location = .ghost then [id] else [])) :
    Linked p'.location p'.queue := by
  refine h.linked.relocate (location_update hhooks) ?_
  intro at_ hat
  rw [location_self hhooks]
  cases at_ with
  | none => exact absurd rfl hat
  | small => exact hsmall
  | main => exact hmain
  | ghost => exact hghost

/-- A queue the entry is not in stays as it is. -/
theorem Represents.aside (h : p.Represents) (at_ : Location) {to_ : Location} (hat : at_ ≠ .none) (hwas : p.location id ≠ at_)
    (hnow : to_ ≠ at_) : (p.queue at_).Perm ((p.queue at_).erase id ++ if to_ = at_ then [id] else []) := by
  rw [h.linked.erase_of_ne at_ hat hwas, if_neg hnow, List.append_nil]

theorem Represents.not_mem_small (h : p.Represents) (hat : p.location id ≠ .small) : id ∉ p.small :=
  fun hmem => hat ((h.linked.mem_iff .small nofun).mp hmem)

theorem Represents.not_mem_main (h : p.Represents) (hat : p.location id ≠ .main) : id ∉ p.main :=
  fun hmem => hat ((h.linked.mem_iff .main nofun).mp hmem)

/-- An entry of the main queue is there once, and not in the small queue. -/
theorem Represents.once_main (h : p.Represents) (hmain : p.main = passed ++ id :: rest) :
    id ∉ passed ++ rest ∧ id ∉ p.small := by
  have hat : p.location id = .main := h.linked.at_of_split .main nofun hmain
  have herase : p.main.erase id = passed ++ rest := h.linked.erase_of_split .main nofun hmain
  have hnodup : p.main.Nodup := h.linked.nodup .main nofun
  exact ⟨herase ▸ hnodup.not_mem_erase, h.not_mem_small (hat ▸ nofun)⟩

/-- An entry of the small queue is there once, and not in the main queue. -/
theorem Represents.once_small (h : p.Represents) (hsmall : p.small = passed ++ id :: rest) :
    id ∉ passed ++ rest ∧ id ∉ p.main := by
  have hat : p.location id = .small := h.linked.at_of_split .small nofun hsmall
  have herase : p.small.erase id = passed ++ rest := h.linked.erase_of_split .small nofun hsmall
  have hnodup : p.small.Nodup := h.linked.nodup .small nofun
  exact ⟨herase ▸ hnodup.not_mem_erase, h.not_mem_main (hat ▸ nofun)⟩

theorem Represents.rehook (h : p.Represents) (hsame : hook.location = p.location id) :
    (p.rehook id hook).Represents :=
  ⟨h.linked.of_perm (location_same rfl hsame) fun _ _ => .refl _, h.small, h.main, h.ghost⟩

theorem Represents.recost (h : p.Represents) (hsmall : p.location id ≠ .small) (hmain : p.location id ≠ .main)
    (cost : Nat) : Represents { p with cost := update p.cost id cost } := by
  refine ⟨h.linked, ?_, ?_, h.ghost⟩
  · show p.smallSize = wrap (weight (update p.cost id cost) p.small)
    rw [weight_update (h.not_mem_small hsmall)]
    exact h.small
  · show p.mainSize = wrap (weight (update p.cost id cost) p.main)
    rw [weight_update (h.not_mem_main hmain)]
    exact h.main

theorem Represents.spliceMain (h : p.Represents) (hmain : p.main = passed ++ rest) :
    Represents { p with main := rest ++ passed } := by
  have hperm : (rest ++ passed).Perm p.main := hmain ▸ List.perm_append_comm
  refine ⟨h.linked.of_perm (fun _ => rfl) ?_, h.small, ?_, h.ghost⟩
  · intro at_ _
    cases at_ with
    | main => exact hperm
    | none => exact .refl _
    | small => exact .refl _
    | ghost => exact .refl _
  · show p.mainSize = wrap (weight p.cost (rest ++ passed))
    rw [weight_perm hperm]
    exact h.main

theorem Represents.spliceSmall (h : p.Represents) (hsmall : p.small = passed ++ rest) :
    Represents { p with small := rest ++ passed } := by
  have hperm : (rest ++ passed).Perm p.small := hsmall ▸ List.perm_append_comm
  refine ⟨h.linked.of_perm (fun _ => rfl) ?_, ?_, h.main, h.ghost⟩
  · intro at_ _
    cases at_ with
    | small => exact hperm
    | none => exact .refl _
    | main => exact .refl _
    | ghost => exact .refl _
  · show p.smallSize = wrap (weight p.cost (rest ++ passed))
    rw [weight_perm hperm]
    exact h.small

theorem Represents.turn (h : p.Represents) (hmain : p.main = passed ++ id :: rest) :
    (p.turn id (passed ++ rest)).Represents := by
  have hperm : (passed ++ rest ++ [id]).Perm p.main := by
    rw [hmain, List.append_assoc]
    exact List.Perm.append_left passed (List.perm_append_singleton id rest)
  have hsame : (if p.awaited id then { p.hooks id with turns := (p.hooks id).turns + 1 }
      else { p.hooks id with freq := (p.hooks id).freq - 1 }).location = p.location id := by
    split
    next => rfl
    next => rfl
  refine ⟨h.linked.of_perm (location_same rfl hsame) ?_, h.small, ?_, h.ghost⟩
  · intro at_ _
    cases at_ with
    | main => exact hperm
    | none => exact .refl _
    | small => exact .refl _
    | ghost => exact .refl _
  · show p.mainSize = wrap (weight p.cost (passed ++ rest ++ [id]))
    rw [weight_perm hperm]
    exact h.main

theorem Represents.refuseMain (h : p.Represents) (hmain : id ∈ p.main) : (p.refuseMain id).Represents := by
  have hat : p.location id = .main := (h.linked.mem_iff .main nofun).mp hmain
  have hlinked := @Represents.rehook _ _ _ id { p.hooks id with location := .main } h hat.symm
  exact ⟨hlinked.linked, hlinked.small, hlinked.main, hlinked.ghost⟩

theorem Represents.takeMain (h : p.Represents) (hmain : p.main = passed ++ id :: rest) (leaves : Nat) :
    (p.takeMain id (passed ++ rest) leaves).Represents := by
  have hat : p.location id = .main := h.linked.at_of_split .main nofun hmain
  have herase : p.main.erase id = passed ++ rest := h.linked.erase_of_split .main nofun hmain
  obtain ⟨hgone, hsmall⟩ := h.once_main hmain
  refine ⟨h.relinked rfl ?_ ?_ ?_, ?_, ?_, h.ghost⟩
  · exact h.aside .small nofun (hat ▸ nofun) nofun
  · show (passed ++ rest).Perm (p.main.erase id ++ [])
    rw [herase, List.append_nil]
  · exact h.aside .ghost nofun (hat ▸ nofun) nofun
  · show p.smallSize = wrap (weight (update p.cost id leaves) p.small)
    rw [weight_update hsmall]
    exact h.small
  · show less p.mainSize (p.cost id) = wrap (weight (update p.cost id leaves) (passed ++ rest))
    rw [weight_update hgone, h.main, hmain, weight_split, less_wrap]

theorem Represents.promote (h : p.Represents) (hsmall : p.small = passed ++ id :: rest) :
    (p.promote id (passed ++ rest)).Represents := by
  have hat : p.location id = .small := h.linked.at_of_split .small nofun hsmall
  have herase : p.small.erase id = passed ++ rest := h.linked.erase_of_split .small nofun hsmall
  have hmain : p.main.erase id = p.main := h.linked.erase_of_ne .main nofun (hat ▸ nofun)
  refine ⟨h.relinked rfl ?_ ?_ ?_, ?_, ?_, h.ghost⟩
  · show (passed ++ rest).Perm (p.small.erase id ++ [])
    rw [herase, List.append_nil]
  · show (p.main ++ [id]).Perm (p.main.erase id ++ [id])
    rw [hmain]
  · exact h.aside .ghost nofun (hat ▸ nofun) nofun
  · show less p.smallSize (p.cost id) = wrap (weight p.cost (passed ++ rest))
    rw [h.small, hsmall, weight_split, less_wrap]
  · show wrap (p.mainSize + p.cost id) = wrap (weight p.cost (p.main ++ [id]))
    rw [h.main, weight_snoc, wrap_add]

theorem Represents.takeSmall (h : p.Represents) (hsmall : p.small = passed ++ id :: rest) (leaves : Nat) :
    (p.takeSmall id (passed ++ rest) leaves).Represents := by
  have hat : p.location id = .small := h.linked.at_of_split .small nofun hsmall
  have herase : p.small.erase id = passed ++ rest := h.linked.erase_of_split .small nofun hsmall
  have hghost : p.ghost.erase id = p.ghost := h.linked.erase_of_ne .ghost nofun (hat ▸ nofun)
  obtain ⟨hgone, hmain⟩ := h.once_small hsmall
  refine ⟨h.relinked rfl ?_ ?_ ?_, ?_, ?_, ?_⟩
  · show (passed ++ rest).Perm (p.small.erase id ++ [])
    rw [herase, List.append_nil]
  · exact h.aside .main nofun (hat ▸ nofun) nofun
  · show (p.ghost ++ [id]).Perm (p.ghost.erase id ++ [id])
    rw [hghost]
  · show less p.smallSize (p.cost id) = wrap (weight (update p.cost id leaves) (passed ++ rest))
    rw [weight_update hgone, h.small, hsmall, weight_split, less_wrap]
  · show p.mainSize = wrap (weight (update p.cost id leaves) p.main)
    rw [weight_update hmain]
    exact h.main
  · show p.ghostEntries + 1 = (p.ghost ++ [id]).length
    rw [h.ghost, List.length_append, List.length_singleton]

theorem Represents.forget (h : p.Represents) {evictor : Evictor ι} (hghost : p.ghost = id :: rest) :
    (p.forget evictor id rest).Represents := by
  have hghost' : p.queue .ghost = [] ++ id :: rest := hghost
  have hat : p.location id = .ghost := h.linked.at_of_split .ghost nofun hghost'
  have herase : p.ghost.erase id = rest := h.linked.erase_of_split .ghost nofun hghost'
  refine ⟨h.relinked rfl ?_ ?_ ?_, ?_, ?_, ?_⟩
  · exact h.aside .small nofun (hat ▸ nofun) nofun
  · exact h.aside .main nofun (hat ▸ nofun) nofun
  · show rest.Perm (p.ghost.erase id ++ [])
    rw [herase, List.append_nil]
  · show p.smallSize = wrap (weight (update p.cost id _) p.small)
    rw [weight_update (h.not_mem_small (hat ▸ nofun))]
    exact h.small
  · show p.mainSize = wrap (weight (update p.cost id _) p.main)
    rw [weight_update (h.not_mem_main (hat ▸ nofun))]
    exact h.main
  · show p.ghostEntries - 1 = rest.length
    rw [h.ghost, hghost, List.length_cons, Nat.add_sub_cancel]

theorem Represents.insert (h : p.Represents) (hat : p.location id = .none) : (p.insert id).Represents := by
  have hsmall : p.small.erase id = p.small := h.linked.erase_of_ne .small nofun (hat ▸ nofun)
  have hmain : p.main.erase id = p.main := h.linked.erase_of_ne .main nofun (hat ▸ nofun)
  unfold Policy.insert
  dsimp only
  split
  · refine ⟨h.relinked rfl ?_ ?_ ?_, h.small, ?_, h.ghost⟩
    · exact h.aside .small nofun (hat ▸ nofun) nofun
    · show (p.main ++ [id]).Perm (p.main.erase id ++ [id])
      rw [hmain]
    · exact h.aside .ghost nofun (hat ▸ nofun) nofun
    · show wrap (p.mainSize + p.cost id) = wrap (weight p.cost (p.main ++ [id]))
      rw [h.main, weight_snoc, wrap_add]
  · refine ⟨h.relinked rfl ?_ ?_ ?_, ?_, h.main, h.ghost⟩
    · show (p.small ++ [id]).Perm (p.small.erase id ++ [id])
      rw [hsmall]
    · exact h.aside .main nofun (hat ▸ nofun) nofun
    · exact h.aside .ghost nofun (hat ▸ nofun) nofun
    · show wrap (p.smallSize + p.cost id) = wrap (weight p.cost (p.small ++ [id]))
      rw [h.small, weight_snoc, wrap_add]

theorem Represents.remove (h : p.Represents) : (p.remove id).Represents := by
  have hleft : ∀ queue : List ι, queue.Perm (queue ++ []) := fun queue => by rw [List.append_nil]
  have hmem : ∀ at_, at_ ≠ .none → p.location id = at_ → id ∈ p.queue at_ :=
    fun at_ hat heq => (h.linked.mem_iff at_ hat).mpr heq
  unfold Policy.remove
  dsimp only
  split
  next => exact h
  next hat =>
    have hin : id ∈ p.main := hmem .main nofun hat
    refine ⟨h.relinked rfl ?_ (hleft _) ?_, h.small, ?_, h.ghost⟩
    · exact h.aside .small nofun (fun heq => nomatch hat.symm.trans heq) nofun
    · exact h.aside .ghost nofun (fun heq => nomatch hat.symm.trans heq) nofun
    · show less p.mainSize (p.cost id) = wrap (weight p.cost (p.main.erase id))
      rw [h.main, weight_erase hin, less_wrap]
  next hat =>
    have hin : id ∈ p.small := hmem .small nofun hat
    refine ⟨h.relinked rfl (hleft _) ?_ ?_, ?_, h.main, h.ghost⟩
    · exact h.aside .main nofun (fun heq => nomatch hat.symm.trans heq) nofun
    · exact h.aside .ghost nofun (fun heq => nomatch hat.symm.trans heq) nofun
    · show less p.smallSize (p.cost id) = wrap (weight p.cost (p.small.erase id))
      rw [h.small, weight_erase hin, less_wrap]
  next hat =>
    have hin : id ∈ p.ghost := hmem .ghost nofun hat
    refine ⟨h.relinked rfl ?_ ?_ (hleft _), h.small, h.main, ?_⟩
    · exact h.aside .small nofun (fun heq => nomatch hat.symm.trans heq) nofun
    · exact h.aside .main nofun (fun heq => nomatch hat.symm.trans heq) nofun
    · show p.ghostEntries - 1 = (p.ghost.erase id).length
      rw [h.ghost, List.length_erase_of_mem hin]

end Operations

end Policy

end KwaqueStorage.CachePolicy
