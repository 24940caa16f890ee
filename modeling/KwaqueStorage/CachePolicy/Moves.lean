import KwaqueStorage.CachePolicy.Policy

/-!
# What an eviction is made of

The loops over the small and the main queue, nested as they are, only ever make one of six moves that free
nothing, each on an entry where it stands in its queue, and end with at most one that frees. Everything that
is said of an eviction is said of these moves.
-/

namespace KwaqueStorage.CachePolicy

open Lib Relation
open PageCache (Hook Location Queue Effort)

variable {ι : Type} [DecidableEq ι]

namespace Policy

/-- What a request has spent, and the policy. -/
abbrev Point (ι : Type) := Effort × Policy ι

/-- A move that frees nothing. -/
inductive Move (evictor : Evictor ι) : Point ι → Point ι → Prop
  | turn {spent : Effort} {p : Policy ι} {id : ι} {passed rest : List ι} (queued : p.main = passed ++ id :: rest)
      (keeps : p.awaited id = true ∨ 0 < (p.hooks id).freq) (more : spent.mainTurns < p.limit spent) :
      Move evictor (spent, p) ({ spent with mainTurns := spent.mainTurns + 1 }, p.turn id (passed ++ rest))
  | refuseMain {spent : Effort} {p : Policy ι} {id : ι} (queued : id ∈ p.main)
      (more : spent.mainRefused < p.limit spent) (refuses : (evictor p.log id .main).approves = false) :
      Move evictor (spent, p) ({ spent with mainRefused := spent.mainRefused + 1 }, p.refuseMain id)
  | spliceMain {spent : Effort} {p : Policy ι} {passed rest : List ι} (queued : p.main = passed ++ rest) :
      Move evictor (spent, p) (spent, { p with main := rest ++ passed })
  | promote {spent : Effort} {p : Policy ι} {id : ι} {passed rest : List ι} (queued : p.small = passed ++ id :: rest)
      (used : 1 < (p.hooks id).freq) (more : spent.smallWasted < p.limit spent) :
      Move evictor (spent, p) ({ spent with smallWasted := spent.smallWasted + 1 }, p.promote id (passed ++ rest))
  | refuseSmall {spent : Effort} {p : Policy ι} {id : ι} (queued : id ∈ p.small)
      (more : spent.smallWasted < p.limit spent) (refuses : (evictor p.log id .small).approves = false) :
      Move evictor (spent, p) ({ spent with smallWasted := spent.smallWasted + 1 }, p.refuseSmall id)
  | spliceSmall {spent : Effort} {p : Policy ι} {passed rest : List ι} (queued : p.small = passed ++ rest) :
      Move evictor (spent, p) (spent, { p with small := rest ++ passed })

/-- A move that frees the value of an entry. -/
inductive Frees (evictor : Evictor ι) : Point ι → Point ι → Prop
  | main {spent : Effort} {p : Policy ι} {id : ι} {passed rest : List ι} (queued : p.main = passed ++ id :: rest)
      (approves : (evictor p.log id .main).approves = true) :
      Frees evictor (spent, p) ({ spent with freed := spent.freed + 1 },
        p.takeMain id (passed ++ rest) (evictor p.log id .main).leaves)
  | small {spent : Effort} {p : Policy ι} {id : ι} {passed rest : List ι} (queued : p.small = passed ++ id :: rest)
      (approves : (evictor p.log id .small).approves = true) :
      Frees evictor (spent, p) ({ spent with freed := spent.freed + 1 },
        p.takeSmall id (passed ++ rest) (evictor p.log id .small).leaves)

/-- **An eviction**: moves that free nothing, and one that frees exactly if it says so. -/
inductive Evicts (evictor : Evictor ι) : Point ι → Bool × Point ι → Prop
  | nothing {start final : Point ι} (moves : ReflTransGen (Move evictor) start final) :
      Evicts evictor start (false, final)
  | freed {start last final : Point ι} (moves : ReflTransGen (Move evictor) start last)
      (frees : Frees evictor last final) : Evicts evictor start (true, final)

section Loops

variable {evictor : Evictor ι} {start next : Point ι} {result : Bool × Point ι}

theorem Evicts.after (move : Move evictor start next) (h : Evicts evictor next result) :
    Evicts evictor start result := by
  cases h with
  | nothing moves => exact .nothing (.head move moves)
  | freed moves frees => exact .freed (.head move moves) frees

/-- What was tried first gave nothing. -/
theorem Evicts.otherwise (h : Evicts evictor start (false, next)) (h' : Evicts evictor next result) :
    Evicts evictor start result := by
  cases h with
  | nothing moves =>
    cases h' with
    | nothing moves' => exact .nothing (moves.trans moves')
    | freed moves' frees => exact .freed (moves.trans moves') frees

theorem Evicts.stop (move : Move evictor start next) : Evicts evictor start (false, next) :=
  .nothing (.single move)

variable {passed rest : List ι} {spent : Effort} {p : Policy ι}

theorem evictMain_evicts (hmain : p.main = passed ++ rest) :
    Evicts evictor (spent, p) (evictMain evictor passed spent p rest) := by
  fun_induction evictMain evictor passed spent p rest with
  | case1 passed spent p => exact .nothing .refl
  | case2 passed spent p id rest hcap => exact .stop (.spliceMain hmain)
  | case3 passed spent p id hcap hturns spent' =>
    have hmove : Move evictor (spent, p) (spent', p.turn id (passed ++ [])) := .turn hmain hturns.1 hturns.2
    rw [List.append_nil] at hmove
    exact .stop hmove
  | case4 passed spent p id rest hcap hturns spent' hrest ih =>
    exact .after (.turn hmain hturns.1 hturns.2) (ih (List.append_assoc passed rest [id]))
  | case5 passed spent p id rest hcap hturns answer happroves => exact .freed .refl (.main hmain happroves)
  | case6 passed spent p id rest hcap hturns answer hrefuses ih =>
    have hqueued : id ∈ p.main := hmain ▸ List.mem_append_right passed (List.mem_cons_self ..)
    have hmain' : p.main = (passed ++ [id]) ++ rest := by rw [hmain, List.append_assoc, List.singleton_append]
    exact .after (.refuseMain hqueued (Nat.not_le.mp hcap) (Bool.eq_false_iff.mpr hrefuses)) (ih hmain')

/-- The main queue's loop leaves the small queue alone. -/
theorem evictMain_small : (evictMain evictor passed spent p rest).2.2.small = p.small := by
  fun_induction evictMain evictor passed spent p rest with
  | case1 => rfl
  | case2 => rfl
  | case3 => rfl
  | case4 _ _ _ _ _ _ _ _ _ ih => exact ih
  | case5 => rfl
  | case6 _ _ _ _ _ _ _ _ _ ih => exact ih

theorem evictSmall_evicts (hsmall : p.small = passed ++ rest) :
    Evicts evictor (spent, p) (evictSmall evictor passed rest spent p) := by
  fun_induction evictSmall evictor passed rest spent p with
  | case1 passed spent p => exact .nothing .refl
  | case2 passed id rest spent p hcap => exact .stop (.spliceSmall hsmall)
  | case3 passed id rest spent p hcap hused promoted spent₁ hfull spent₂ p₂ hevicts =>
    have hmain : Evicts evictor (spent₁, promoted) (true, spent₂, p₂) :=
      hevicts ▸ evictMain_evicts (List.nil_append _).symm
    exact .after (.promote hsmall hused (Nat.not_le.mp hcap)) hmain
  | case4 passed id rest spent p hcap hused promoted spent₁ hfull spent₂ p₂ hevicts ih =>
    have hmain : Evicts evictor (spent₁, promoted) (false, spent₂, p₂) :=
      hevicts ▸ evictMain_evicts (List.nil_append _).symm
    have hsame : p₂.small = promoted.small := by
      rw [← @evictMain_small ι _ evictor [] promoted.main spent₁ promoted, hevicts]
    exact .after (.promote hsmall hused (Nat.not_le.mp hcap)) (hmain.otherwise (ih hsame))
  | case5 passed id rest spent p hcap hused promoted spent₁ hfull ih =>
    exact .after (.promote hsmall hused (Nat.not_le.mp hcap)) (ih rfl)
  | case6 passed id rest spent p hcap hused answer happroves => exact .freed .refl (.small hsmall happroves)
  | case7 passed id rest spent p hcap hused answer hrefuses ih =>
    have hqueued : id ∈ p.small := hsmall ▸ List.mem_append_right passed (List.mem_cons_self ..)
    have hsmall' : p.small = (passed ++ [id]) ++ rest := by rw [hsmall, List.append_assoc, List.singleton_append]
    exact .after (.refuseSmall hqueued (Nat.not_le.mp hcap) (Bool.eq_false_iff.mpr hrefuses)) (ih hsmall')

/-- **Every call of `evict` is an eviction.** -/
theorem evict_evicts (evictor : Evictor ι) (spent : Effort) (p : Policy ι) :
    Evicts evictor (spent, p) (p.evict evictor spent) := by
  have hsmall : ∀ (spent : Effort) (p : Policy ι), Evicts evictor (spent, p) (evictSmall evictor [] p.small spent p) :=
    fun _ _ => evictSmall_evicts (List.nil_append _).symm
  have hmain : ∀ (spent : Effort) (p : Policy ι), Evicts evictor (spent, p) (evictMain evictor [] spent p p.main) :=
    fun _ _ => evictMain_evicts (List.nil_append _).symm
  unfold evict
  split
  · have hfirst := hsmall spent p
    split
    next heq => rwa [heq] at hfirst
    next heq =>
      rw [heq] at hfirst
      exact hfirst.otherwise (hmain _ _)
  · have hfirst := hmain spent p
    split
    next heq => rwa [heq] at hfirst
    next heq =>
      rw [heq] at hfirst
      exact hfirst.otherwise (hsmall _ _)

/-- What every move and every one that frees keeps, an eviction keeps. -/
theorem Evicts.invariant {I : Point ι → Prop} (hmove : ∀ a b, I a → Move evictor a b → I b)
    (hfrees : ∀ a b, I a → Frees evictor a b → I b) (h : Evicts evictor start result) (hstart : I start) :
    I result.2 := by
  have hmoves : ∀ final, ReflTransGen (Move evictor) start final → I final := by
    intro final moves
    induction moves with
    | refl => exact hstart
    | tail _ move ih => exact hmove _ _ ih move
  cases h with
  | nothing moves => exact hmoves _ moves
  | freed moves frees => exact hfrees _ _ (hmoves _ moves) frees

end Loops

end Policy

end KwaqueStorage.CachePolicy
