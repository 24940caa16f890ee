import KwaqueStorage.Base.Types

/-!
# The page cache's queues

A shard's page cache keeps its entries in three queues: the small one for what is new, the main one for what
was used again or is waited for, and the ghost queue for what it only remembers. The places of the objects,
their slots and the keys of their indexes, hold at most one entry each; an entry out of its place lives on
while something holds it.

An entry is found through its place: what an intrusive index is, the entries linked into it, is here the
entries whose `home` is one of its keys. Bytes and sizes are natural numbers; the sizes of the queues are the
costs of what they hold, so no subtraction goes below zero.
-/

namespace KwaqueStorage.PageCache

variable {κ : Type}

/-- `cache_hook::location`. -/
inductive Location
  | none
  | small
  | main
  | ghost
  deriving DecidableEq

/-- `cache_hook`. -/
structure Hook where
  ghostInsertionTime : Option Nat := none
  freq : Nat := 0
  expected : Nat := 0
  turns : Nat := 0
  location : Location := .none
  deriving DecidableEq

namespace Hook

/-- The copy of a hook: what was remembered, and none of the queues. -/
def copy (hook : Hook) : Hook := { ghostInsertionTime := hook.ghostInsertionTime, freq := hook.freq }

/-- `cache_hook::expect`. -/
def expect (hook : Hook) (uses : Nat) : Hook := { hook with expected := min uses 255 }

/-- `cache_hook::touch`. -/
def touch (hook : Hook) : Hook :=
  if 0 < hook.expected then { hook with expected := hook.expected - 1 }
  else { hook with freq := min (hook.freq + 1) 3 }

end Hook

/-- `cache_entry`. Its place, while it is in it, is its `home`. -/
structure Entry (κ : Type) where
  id : Nat
  home : Option κ
  hook : Hook
  /-- What its reader's reservation retains, for one the reader funds. -/
  funding : Option Nat := none
  cost : Nat
  shell : Nat
  holders : Nat := 0
  loading : Bool := true
  fetched : Bool := false
  valued : Bool := false
  deriving DecidableEq

/-- `cache_queue`. -/
inductive Queue
  | small
  | main
  | ghost
  deriving DecidableEq

/-- `page_cache` with its `cache_account` and `cache_policy`. -/
structure Cache (κ : Type) where
  capacity : Nat
  maxSmall : Nat
  maxMain : Nat
  effortCap : Nat := 30
  expectedTurns : Nat := 5
  /-- Every entry that was made and not destroyed. -/
  entries : List (Entry κ) := []
  /-- The next entry's name. -/
  next : Nat := 0
  used : Nat := 0
  small : List Nat := []
  main : List Nat := []
  ghost : List Nat := []
  smallSize : Nat := 0
  mainSize : Nat := 0
  ghostAge : Nat := 0
  loads : Nat := 0
  uncached : Nat := 0
  refused : Nat := 0
  evicted : Nat := 0
  stopped : Bool := false
  deriving DecidableEq

/-- `cache_policy::effort`. -/
structure Effort where
  freed : Nat := 0
  smallWasted : Nat := 0
  mainTurns : Nat := 0
  mainRefused : Nat := 0
  forgotten : Nat := 0
  deriving DecidableEq

namespace Cache

/-- An empty cache of a capacity of two bytes at least: `page_cache::make`. -/
def make (capacity : Nat) : Cache κ :=
  let small := max 1 (min (capacity / 10) (capacity - 1))
  { capacity, maxSmall := small, maxMain := capacity - small }

/-- The entry of a name. -/
def get (c : Cache κ) (id : Nat) : Option (Entry κ) := c.entries.find? fun e => decide (e.id = id)

/-- An entry is changed where it is. -/
def update (c : Cache κ) (id : Nat) (f : Entry κ → Entry κ) : Cache κ :=
  { c with entries := c.entries.map fun e => if e.id = id then f e else e }

/-- `cache_entry::destroy`: its bytes are given back. -/
def destroy (c : Cache κ) (id : Nat) : Cache κ :=
  match c.get id with
  | none => c
  | some e => { c with entries := c.entries.filter fun e => decide (e.id ≠ id), used := c.used - e.cost }

/-- `cache_policy::remove`. -/
def remove (c : Cache κ) (e : Entry κ) : Cache κ :=
  let c := c.update e.id fun e => { e with hook := { e.hook with location := .none } }
  match e.hook.location with
  | .none => c
  | .main => { c with main := c.main.erase e.id, mainSize := c.mainSize - e.cost }
  | .small => { c with small := c.small.erase e.id, smallSize := c.smallSize - e.cost }
  | .ghost => { c with ghost := c.ghost.erase e.id }

/-- `cache_entry::retire`: out of its place, if it is in it, and gone unless something holds it. -/
def retire (c : Cache κ) (id : Nat) : Cache κ :=
  match c.get id with
  | none => c
  | some e =>
    if e.home.isNone then c
    else
      let c := (c.remove e).update id fun e => { e with home := none }
      if e.holders = 0 then c.destroy id else c

/-- `cache_policy::ghost_queue_contains`. -/
def ghostQueueContains (c : Cache κ) (hook : Hook) : Bool :=
  hook.ghostInsertionTime.any fun time => decide (c.ghostAge < time + c.maxMain)

/-- `cache_policy::insert`. -/
def insert (c : Cache κ) (e : Entry κ) : Cache κ :=
  if 0 < e.hook.expected ∨ c.ghostQueueContains e.hook = true then
    { c.update e.id fun e =>
        { e with hook := { e.hook with turns := 0, ghostInsertionTime := none, location := .main } } with
      main := c.main ++ [e.id], mainSize := c.mainSize + e.cost }
  else
    { c.update e.id fun e => { e with hook := { e.hook with turns := 0, location := .small } } with
      small := c.small ++ [e.id], smallSize := c.smallSize + e.cost }

/-- `cache_entry::evicted_from`, of an entry nothing holds. -/
def evictedFrom (c : Cache κ) (e : Entry κ) : Queue → Cache κ
  | .small =>
    { c.update e.id fun e => { e with valued := false, cost := e.shell } with
      used := c.used - (e.cost - e.shell), evicted := c.evicted + 1 }
  | .main => { c with evicted := c.evicted + 1 }.retire e.id
  | .ghost => c.retire e.id

/-! ## Evicting -/

/-- An entry of the main queue gets another turn, for a use that is awaited or one it had. -/
def turn (c : Cache κ) (id : Nat) (awaited : Bool) : Cache κ :=
  c.update id fun e =>
    if awaited then { e with hook := { e.hook with turns := e.hook.turns + 1 } }
    else { e with hook := { e.hook with freq := e.hook.freq - 1 } }

/-- An entry leaves the main queue, of which the others stay. It is unlinked before it is asked, as it may be
    destroyed. -/
def takeMain (c : Cache κ) (e : Entry κ) (main : List Nat) : Cache κ :=
  let c := { c.update e.id fun e => { e with hook := { e.hook with location := .none } } with main }
  let c := c.evictedFrom { e with hook := { e.hook with location := .none } } .main
  { c with mainSize := c.mainSize - e.cost }

/-- An entry goes from the small queue to the main queue. -/
def promote (c : Cache κ) (e : Entry κ) (small : List Nat) : Cache κ :=
  { c.update e.id fun e => { e with hook := { e.hook with freq := 0, location := .main } } with
    small, smallSize := c.smallSize - e.cost, main := c.main ++ [e.id], mainSize := c.mainSize + e.cost }

/-- An entry leaves the small queue: its value goes, and the ghost queue remembers it. -/
def takeSmall (c : Cache κ) (e : Entry κ) (small : List Nat) : Cache κ :=
  let c := c.evictedFrom e .small
  { c.update e.id fun e =>
      { e with hook := { e.hook with location := .ghost, ghostInsertionTime := some c.ghostAge } } with
    small, smallSize := c.smallSize - e.cost, ghost := c.ghost ++ [e.id], ghostAge := c.ghostAge + e.cost }

/-- `cache_policy::evict_main`, from where it has got to: those that refused stay before it. A further turn of
    the last entry ends the walk, as what follows that entry where it was is the end of the queue. -/
def evictMain (cap : Nat) (passed rest : List Nat) (spent : Effort) (c : Cache κ) : Bool × Effort × Cache κ :=
  match rest with
  | [] => (false, spent, { c with main := passed })
  | id :: rest =>
    if (spent.freed + 1) * cap ≤ spent.mainRefused then (false, spent, { c with main := id :: rest ++ passed })
    else
      match c.get id with
      | none => evictMain cap passed rest spent c
      | some e =>
        let awaited : Bool := decide (0 < e.hook.expected) && decide (e.hook.turns < c.expectedTurns)
        if _h : (awaited = true ∨ 0 < e.hook.freq) ∧ spent.mainTurns < (spent.freed + 1) * cap then
          let spent := { spent with mainTurns := spent.mainTurns + 1 }
          if rest = [] then (false, spent, { c.turn id awaited with main := passed ++ [id] })
          else evictMain cap passed (rest ++ [id]) spent (c.turn id awaited)
        else if e.holders = 0 then
          (true, { spent with freed := spent.freed + 1 }, c.takeMain e (passed ++ rest))
        else evictMain cap (passed ++ [id]) rest { spent with mainRefused := spent.mainRefused + 1 } c
termination_by ((spent.freed + 1) * cap - spent.mainTurns, rest.length)
decreasing_by
  · exact Prod.Lex.right _ (Nat.lt_succ_self _)
  · exact Prod.Lex.left _ _ (by omega)
  · exact Prod.Lex.right _ (Nat.lt_succ_self _)

/-- `cache_policy::evict_small`, from where it has got to. -/
def evictSmall (cap : Nat) : List Nat → List Nat → Effort → Cache κ → Bool × Effort × Cache κ
  | passed, [], spent, c => (false, spent, { c with small := passed })
  | passed, id :: rest, spent, c =>
    if (spent.freed + 1) * cap ≤ spent.smallWasted then
      (false, spent, { c with small := id :: rest ++ passed })
    else
      match c.get id with
      | none => evictSmall cap passed rest spent c
      | some e =>
        if 1 < e.hook.freq then
          let c := c.promote e (passed ++ rest)
          let spent := { spent with smallWasted := spent.smallWasted + 1 }
          if c.maxMain < c.mainSize then
            match evictMain cap [] c.main spent c with
            | (true, spent, c) => (true, spent, { c with small := passed ++ rest })
            | (false, spent, c) => evictSmall cap passed rest spent c
          else evictSmall cap passed rest spent c
        else if e.holders = 0 then
          (true, { spent with freed := spent.freed + 1 }, c.takeSmall e (passed ++ rest))
        else evictSmall cap (passed ++ [id]) rest { spent with smallWasted := spent.smallWasted + 1 } c

/-- `cache_policy::evict`. -/
def evict (spent : Effort) (c : Cache κ) : Bool × Effort × Cache κ :=
  let main (spent : Effort) (c : Cache κ) := evictMain c.effortCap [] c.main spent c
  let small (spent : Effort) (c : Cache κ) := evictSmall c.effortCap [] c.small spent c
  if c.maxSmall < c.smallSize then
    match small spent c with
    | (true, spent, c) => (true, spent, c)
    | (false, spent, c) => main spent c
  else
    match main spent c with
    | (true, spent, c) => (true, spent, c)
    | (false, spent, c) => small spent c

/-- `cache_policy::forget`: the ghost queue takes no refusal. -/
def forget (c : Cache κ) (id : Nat) : Cache κ :=
  let c := { c.update id fun e => { e with hook := { e.hook with location := .none } } with
    ghost := c.ghost.erase id }
  match c.get id with
  | none => c
  | some e => if e.holders = 0 then c.evictedFrom e .ghost else c

/-- `cache_policy::forget_expired`: at most so many more. -/
def forgetExpired : Nat → Effort → Cache κ → Effort × Cache κ
  | 0, spent, c => (spent, c)
  | more + 1, spent, c =>
    match c.ghost with
    | [] => (spent, c)
    | id :: _ =>
      if (c.get id).any fun e => c.ghostQueueContains e.hook then (spent, c)
      else forgetExpired more { spent with forgotten := spent.forgotten + 1 } (c.forget id)

/-- `cache_policy::forget_oldest`. -/
def forgetOldest (spent : Effort) (c : Cache κ) : Option (Effort × Cache κ) :=
  match c.ghost with
  | [] => none
  | id :: _ =>
    if c.effortCap ≤ spent.forgotten then none
    else some ({ spent with forgotten := spent.forgotten + 1 }, c.forget id)

end Cache

end KwaqueStorage.PageCache
