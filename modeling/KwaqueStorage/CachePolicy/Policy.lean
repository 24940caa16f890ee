import KwaqueStorage.PageCache.Policy
import KwaqueStorage.Lib.Runs

/-!
# The cache policy

`cache_policy` is the order in which a bounded cache gives its entries up, for entries of any type and costs
of any kind. It asks an evictor before it takes an entry, and the evictor may refuse. Here an entry is its
name, and its hook and its cost are found by it.

The evictor answers as it likes: its answer may depend on all the policy did before, which the log keeps. An
entry costs the same from when it enters the small or the main queue until it is asked to leave; what is left
of one whose value went may cost something else. The sizes of the queues and the age of the ghost queue are
64-bit numbers and wrap. So does the product that bounds the work of a request, whatever its count of what was
freed; the other counts stay below that bound.
-/

namespace KwaqueStorage.CachePolicy

open Lib
open PageCache (Hook Location Queue Effort)
open Function (update)

variable {ι : Type} [DecidableEq ι]

/-- What a 64-bit number keeps. -/
def wrap (n : Nat) : Nat := n % 2 ^ 64

/-- A 64-bit difference. -/
def less (n m : Nat) : Nat := wrap (n + (2 ^ 64 - wrap m))

/-- `cache_policy::config`, as its constructor takes it. -/
structure Config where
  cacheSize : Nat
  smallSize : Nat
  effortCap : Nat := 30
  expectedTurns : Nat := 5
  shares : smallSize < cacheSize
  cacheSize_lt : cacheSize < 2 ^ 64
  effortCap_lt : effortCap < 2 ^ 64
  expectedTurns_lt : expectedTurns < 2 ^ 8

/-- What the policy did to an entry. -/
inductive Event (ι : Type)
  /-- A further turn in the main queue. -/
  | turned (id : ι)
  /-- From the small queue to the main queue. -/
  | promoted (id : ι)
  /-- The evictor was asked for an entry of a queue, at its cost then. -/
  | asked (id : ι) (queue : Queue) (cost : Nat) (approved : Bool)
  deriving DecidableEq

/-- What an evictor answers, and what the entry costs once it approved. -/
structure Answer where
  approves : Bool
  leaves : Nat

/-- `cache_evictor`. -/
abbrev Evictor (ι : Type) := List (Event ι) → ι → Queue → Answer

/-- `cache_policy`. -/
structure Policy (ι : Type) where
  maxSmall : Nat
  maxMain : Nat
  effortCap : Nat
  expectedTurns : Nat
  hooks : ι → Hook
  cost : ι → Nat
  small : List ι := []
  main : List ι := []
  ghost : List ι := []
  smallSize : Nat := 0
  mainSize : Nat := 0
  ghostAge : Nat := 0
  ghostEntries : Nat := 0
  log : List (Event ι) := []

namespace Policy

/-- A policy of entries that were never inserted. -/
def make (config : Config) : Policy ι where
  maxSmall := config.smallSize
  maxMain := config.cacheSize - config.smallSize
  effortCap := config.effortCap
  expectedTurns := config.expectedTurns
  hooks := fun _ => {}
  cost := fun _ => 0

/-- An entry's hook is changed. -/
def rehook (p : Policy ι) (id : ι) (hook : Hook) : Policy ι := { p with hooks := update p.hooks id hook }

/-- `cache_policy::ghost_queue_contains`. -/
def ghostQueueContains (p : Policy ι) (id : ι) : Bool :=
  (p.hooks id).ghostInsertionTime.any fun time => decide (p.ghostAge < wrap (time + p.maxMain))

/-- `cache_policy::insert`. -/
def insert (p : Policy ι) (id : ι) : Policy ι :=
  let hook := { p.hooks id with turns := 0 }
  if 0 < hook.expected ∨ p.ghostQueueContains id = true then
    { p.rehook id { hook with ghostInsertionTime := none, location := .main } with
      main := p.main ++ [id], mainSize := wrap (p.mainSize + p.cost id) }
  else
    { p.rehook id { hook with location := .small } with
      small := p.small ++ [id], smallSize := wrap (p.smallSize + p.cost id) }

/-- `cache_policy::remove`. -/
def remove (p : Policy ι) (id : ι) : Policy ι :=
  let unlinked := p.rehook id { p.hooks id with location := .none }
  match (p.hooks id).location with
  | .none => p
  | .main => { unlinked with mainSize := less p.mainSize (p.cost id), main := p.main.erase id }
  | .small => { unlinked with smallSize := less p.smallSize (p.cost id), small := p.small.erase id }
  | .ghost => { unlinked with ghost := p.ghost.erase id, ghostEntries := p.ghostEntries - 1 }

/-! ## Evicting -/

/-- The work that frees nothing a request may do in one queue. -/
def limit (p : Policy ι) (spent : Effort) : Nat := wrap ((spent.freed + 1) * p.effortCap)

/-- Uses of an entry are still to come, and it waited for fewer turns than it may. -/
def awaited (p : Policy ι) (id : ι) : Bool :=
  decide (0 < (p.hooks id).expected) && decide ((p.hooks id).turns < p.expectedTurns)

/-- An entry of the main queue gets a further turn, behind the others. -/
def turn (p : Policy ι) (id : ι) (others : List ι) : Policy ι :=
  let hook := p.hooks id
  { p.rehook id (if p.awaited id then { hook with turns := hook.turns + 1 } else { hook with freq := hook.freq - 1 })
    with main := others ++ [id], log := p.log ++ [.turned id] }

/-- An entry of the main queue declined: it is linked again where it was. -/
def refuseMain (p : Policy ι) (id : ι) : Policy ι :=
  { p.rehook id { p.hooks id with location := .main } with
    log := p.log ++ [.asked id .main (p.cost id) false] }

/-- An entry leaves the main queue, and the policy. -/
def takeMain (p : Policy ι) (id : ι) (others : List ι) (leaves : Nat) : Policy ι :=
  { p.rehook id { p.hooks id with location := .none } with
    cost := update p.cost id leaves
    main := others
    mainSize := less p.mainSize (p.cost id)
    log := p.log ++ [.asked id .main (p.cost id) true] }

/-- An entry goes from the small queue to the main queue. -/
def promote (p : Policy ι) (id : ι) (others : List ι) : Policy ι :=
  { p.rehook id { p.hooks id with freq := 0, location := .main } with
    small := others
    smallSize := less p.smallSize (p.cost id)
    main := p.main ++ [id]
    mainSize := wrap (p.mainSize + p.cost id)
    log := p.log ++ [.promoted id] }

/-- An entry of the small queue declined. -/
def refuseSmall (p : Policy ι) (id : ι) : Policy ι :=
  { p with log := p.log ++ [.asked id .small (p.cost id) false] }

/-- An entry leaves the small queue, and the ghost queue remembers it. -/
def takeSmall (p : Policy ι) (id : ι) (others : List ι) (leaves : Nat) : Policy ι :=
  { p.rehook id { p.hooks id with location := .ghost, ghostInsertionTime := some p.ghostAge } with
    cost := update p.cost id leaves
    small := others
    smallSize := less p.smallSize (p.cost id)
    ghost := p.ghost ++ [id]
    ghostAge := wrap (p.ghostAge + p.cost id)
    ghostEntries := p.ghostEntries + 1
    log := p.log ++ [.asked id .small (p.cost id) true] }

/-- `cache_policy::evict_main`, from where it has got to: those that refused stay before it. What follows an
    entry that gets a further turn is what followed it before, and after the last one that is the end. -/
def evictMain (evictor : Evictor ι) (passed : List ι) (spent : Effort) (p : Policy ι) :
    List ι → Bool × Effort × Policy ι
  | [] => (false, spent, p)
  | id :: rest =>
    if p.limit spent ≤ spent.mainRefused then (false, spent, { p with main := id :: rest ++ passed })
    else if _turns : (p.awaited id = true ∨ 0 < (p.hooks id).freq) ∧ spent.mainTurns < p.limit spent then
      let spent' := { spent with mainTurns := spent.mainTurns + 1 }
      if rest = [] then (false, spent', p.turn id passed)
      else evictMain evictor passed spent' (p.turn id (passed ++ rest)) (rest ++ [id])
    else
      let answer := evictor p.log id .main
      if answer.approves then
        (true, { spent with freed := spent.freed + 1 }, p.takeMain id (passed ++ rest) answer.leaves)
      else evictMain evictor (passed ++ [id]) { spent with mainRefused := spent.mainRefused + 1 } (p.refuseMain id) rest
termination_by rest => p.limit spent - spent.mainTurns + rest.length
decreasing_by
  · have hsame : (p.turn id (passed ++ rest)).limit { spent with mainTurns := spent.mainTurns + 1 }
        = p.limit spent := rfl
    have hlength : (rest ++ [id]).length = (id :: rest).length := by
      rw [List.length_append, List.length_singleton, List.length_cons]
    rw [hsame, hlength]
    show p.limit spent - (spent.mainTurns + 1) + _ < _
    omega
  · have hsame : (p.refuseMain id).limit { spent with mainRefused := spent.mainRefused + 1 } = p.limit spent := rfl
    rw [hsame, List.length_cons]
    omega

/-- `cache_policy::evict_small`, from where it has got to. -/
def evictSmall (evictor : Evictor ι) : List ι → List ι → Effort → Policy ι → Bool × Effort × Policy ι
  | _, [], spent, p => (false, spent, p)
  | passed, id :: rest, spent, p =>
    if p.limit spent ≤ spent.smallWasted then (false, spent, { p with small := id :: rest ++ passed })
    else if 1 < (p.hooks id).freq then
      let p := p.promote id (passed ++ rest)
      let spent := { spent with smallWasted := spent.smallWasted + 1 }
      if p.maxMain < p.mainSize then
        match evictMain evictor [] spent p p.main with
        | (true, spent, p) => (true, spent, p)
        | (false, spent, p) => evictSmall evictor passed rest spent p
      else evictSmall evictor passed rest spent p
    else
      let answer := evictor p.log id .small
      if answer.approves then
        (true, { spent with freed := spent.freed + 1 }, p.takeSmall id (passed ++ rest) answer.leaves)
      else
        evictSmall evictor (passed ++ [id]) rest { spent with smallWasted := spent.smallWasted + 1 }
          (p.refuseSmall id)

/-- `cache_policy::evict`. -/
def evict (evictor : Evictor ι) (spent : Effort) (p : Policy ι) : Bool × Effort × Policy ι :=
  if p.maxSmall < p.smallSize then
    match evictSmall evictor [] p.small spent p with
    | (true, spent, p) => (true, spent, p)
    | (false, spent, p) => evictMain evictor [] spent p p.main
  else
    match evictMain evictor [] spent p p.main with
    | (true, spent, p) => (true, spent, p)
    | (false, spent, p) => evictSmall evictor [] p.small spent p

/-! ## Forgetting -/

/-- `cache_policy::forget`, of the front of the ghost queue: what the evictor answers is not asked for. -/
def forget (evictor : Evictor ι) (p : Policy ι) (id : ι) (others : List ι) : Policy ι :=
  let answer := evictor p.log id .ghost
  { p.rehook id { p.hooks id with location := .none } with
    cost := update p.cost id answer.leaves
    ghost := others
    ghostEntries := p.ghostEntries - 1
    log := p.log ++ [.asked id .ghost (p.cost id) answer.approves] }

/-- `cache_policy::forget_expired`, over what is in the ghost queue. -/
def forgetExpired (evictor : Evictor ι) : List ι → Effort → Policy ι → Effort × Policy ι
  | [], spent, p => (spent, p)
  | id :: rest, spent, p =>
    if p.effortCap ≤ spent.forgotten then (spent, p)
    else if p.ghostQueueContains id then (spent, p)
    else forgetExpired evictor rest { spent with forgotten := spent.forgotten + 1 } (p.forget evictor id rest)

/-- `cache_policy::forget_oldest`. -/
def forgetOldest (evictor : Evictor ι) (spent : Effort) (p : Policy ι) : Bool × Effort × Policy ι :=
  match p.ghost with
  | [] => (false, spent, p)
  | id :: rest =>
    if p.effortCap ≤ spent.forgotten then (false, spent, p)
    else (true, { spent with forgotten := spent.forgotten + 1 }, p.forget evictor id rest)

end Policy

/-- What an owner does with a policy and its entries. -/
inductive Action (ι : Type)
  /-- An entry is made, or made to replace one: it starts from that one's hook. -/
  | construct (id : ι) (replaces : Option ι) (cost : Nat)
  | expect (id : ι) (uses : Nat)
  | touch (id : ι)
  /-- What an entry in neither the small nor the main queue costs is its owner's to change. -/
  | recost (id : ι) (cost : Nat)
  | insert (id : ι)
  | remove (id : ι)
  | evict (evictor : Evictor ι) (spent : Effort)
  | forgetExpired (evictor : Evictor ι) (spent : Effort)
  | forgetOldest (evictor : Evictor ι) (spent : Effort)

namespace Policy

/-- One step. Only an entry in no queue is made or inserted: a link that is in use is refused by the lists. -/
def step (p : Policy ι) : Action ι → Option (Policy ι)
  | .construct id replaces cost =>
    if (p.hooks id).location = .none then
      some { p.rehook id ((replaces.map fun other => (p.hooks other).copy).getD {}) with
        cost := update p.cost id cost }
    else none
  | .expect id uses => some (p.rehook id ((p.hooks id).expect uses))
  | .touch id => some (p.rehook id (p.hooks id).touch)
  | .recost id cost =>
    if (p.hooks id).location = .small ∨ (p.hooks id).location = .main then none
    else some { p with cost := update p.cost id cost }
  | .insert id => if (p.hooks id).location = .none then some (p.insert id) else none
  | .remove id => some (p.remove id)
  | .evict evictor spent => some (p.evict evictor spent).2.2
  | .forgetExpired evictor spent => some (p.forgetExpired evictor p.ghost spent).2
  | .forgetOldest evictor spent => some (p.forgetOldest evictor spent).2.2

/-- The policy of a configuration as a transition system. -/
def system (ι : Type) [DecidableEq ι] (config : Config) : System (Policy ι) (Action ι) where
  init p := p = make config
  step := step

end Policy

end KwaqueStorage.CachePolicy
