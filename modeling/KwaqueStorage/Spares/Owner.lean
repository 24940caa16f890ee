import KwaqueStorage.Extent.Format
import KwaqueStorage.Lib.Directories
import KwaqueStorage.Lib.Programs

/-!
# The spares of one shard

`local_spares` keeps files that a removal gave back, each to be made into a later file. A move in
renames the file and syncs the directory it left; the spare directory is synced once for the moves of
a turn. A move out renames the oldest spare and syncs the spare directory.

Each operation is a program over the file system: any of its commands may fail or throw, and a rename
or a removal that fails may have been made. What a `stat` or a listing says is the file system's own
affair; what matters here are the names and the syncs.
-/

namespace KwaqueStorage.Spares

open Lib Extent

/-- How a command goes wrong: with a code, or with an exception and what it is recognized as. -/
inductive Fault
  | errc (why : Errc)
  | thrown (recognized : Option Errc)
  deriving DecidableEq

/-- `runtime::file_kind`. -/
inductive FileKind
  | regular
  | directory
  | other
  deriving DecidableEq

/-- What `stat` tells of a name. -/
structure Status where
  kind : FileKind
  size : Nat
  deriving DecidableEq

/-- A page of a directory's listing. -/
structure Page (ℓ : Type) where
  entries : List (ℓ × FileKind)
  last : Bool

/-- How a rename or a removal went, and whether it was made. -/
structure Change where
  made : Bool
  result : Except Fault Unit

/-- The commands the owner gives. -/
inductive Command (δ ℓ : Type)
  | stat (at_ : δ × ℓ)
  | inspect (directory : δ)
  | openDirectory (directory : δ)
  | next (directory : δ)
  | syncDirectory (directory : δ)
  | closeDirectory (directory : δ)
  | createDirectories (at_ : δ × ℓ)
  | rename (from_ to_ : δ × ℓ)
  | removeFile (at_ : δ × ℓ)
  | checkpoint

/-- The one that moves a file. -/
def Command.isRename {δ ℓ : Type} : Command δ ℓ → Bool
  | .rename _ _ => true
  | _ => false

def Answer {δ ℓ : Type} : Command δ ℓ → Type
  | .stat _ => Except Fault Status
  | .next _ => Except Fault (Page ℓ)
  | .rename _ _ => Change
  | .removeFile _ => Change
  | _ => Except Fault Unit

/-- A program of the owner. -/
abbrev Turn (δ ℓ α : Type) := Prog (Command δ ℓ) Answer α

namespace Files

variable {δ ℓ : Type}

def stat (at_ : δ × ℓ) : Turn δ ℓ (Except Fault Status) := .call (.stat at_) .done

/-- `inspect_local_path`, of a directory. -/
def inspect (directory : δ) : Turn δ ℓ (Except Fault Unit) := .call (.inspect directory) .done

def openDirectory (directory : δ) : Turn δ ℓ (Except Fault Unit) :=
  .call (.openDirectory directory) .done

def next (directory : δ) : Turn δ ℓ (Except Fault (Page ℓ)) := .call (.next directory) .done

def syncDirectory (directory : δ) : Turn δ ℓ (Except Fault Unit) :=
  .call (.syncDirectory directory) .done

def closeDirectory (directory : δ) : Turn δ ℓ (Except Fault Unit) :=
  .call (.closeDirectory directory) .done

def createDirectories (at_ : δ × ℓ) : Turn δ ℓ (Except Fault Unit) :=
  .call (.createDirectories at_) .done

/-- A rename that replaces nothing. -/
def rename (from_ to_ : δ × ℓ) : Turn δ ℓ Change := .call (.rename from_ to_) .done

def removeFile (at_ : δ × ℓ) : Turn δ ℓ Change := .call (.removeFile at_) .done

/-- `detail::path_checkpoint`, and `cooperative_work::poll`. -/
def checkpoint : Turn δ ℓ (Except Fault Unit) := .call .checkpoint .done

end Files

/-- `maximum_segment_spares`. -/
def maximumSegmentSpares : Nat := 64

/-- `local_spares`: where its directory is, how a spare's name is written and read, and its ring of
    spares, oldest first. -/
structure Pool (δ ℓ ν : Type) where
  directory : Except Errc δ
  leaf : ν → Except Errc ℓ
  parse : ℓ → Option ν
  /-- The directory its own is made in, and its name there. -/
  home : δ × ℓ
  bound : Nat
  bound_le : bound ≤ maximumSegmentSpares
  entries : List (ν × Nat) := []
  bytes : Nat := 0
  ready : Bool := false
  unsettled : Bool := false

namespace Pool

variable {δ ℓ ν : Type}

/-- `local_spares::path`. -/
def path (s : Pool δ ℓ ν) (name : ν) : Except Errc (δ × ℓ) := do
  let directory ← s.directory
  let leaf ← s.leaf name
  return (directory, leaf)

/-- `local_spares::push`. -/
def push (s : Pool δ ℓ ν) (name : ν) (bytes : Nat) : Pool δ ℓ ν :=
  { s with
    entries := s.entries ++ [(name, bytes)]
    bytes := if s.bytes + bytes ≤ u64Max then s.bytes + bytes else s.bytes }

/-- `local_spares::pop`, of a ring that holds `rest` beyond the oldest. -/
def pop (s : Pool δ ℓ ν) (taken : ν × Nat) (rest : List (ν × Nat)) : Pool δ ℓ ν :=
  { s with entries := rest, bytes := s.bytes - taken.2 }

/-- `first_failure` over two results, as `detail::settled` returns it. -/
def settled (first second : Except Fault Unit) : Except Fault Unit :=
  let recognize : Fault → Fault
    | .errc why => .errc why
    | .thrown recognized => .errc (recognized.getD .invariantViolation)
  match first, second with
  | .error why, _ => .error (recognize why)
  | .ok _, .error why => .error (recognize why)
  | .ok _, .ok _ => .ok ()

/-- `local_spares::sync`. -/
def sync (directory : δ) : Turn δ ℓ (Except Fault Unit) := do
  match ← Files.inspect directory with
  | .error why => return .error why
  | .ok _ =>
    match ← Files.openDirectory directory with
    | .error why => return .error why
    | .ok _ =>
      let synced ← Files.syncDirectory directory
      let closed ← Files.closeDirectory directory
      return settled synced closed

/-- Whether the directory is there, once it is made where it is not. -/
def makeDirectory (home : δ × ℓ) : Turn δ ℓ (Except Fault Unit) := do
  match ← Files.stat home with
  | .error why =>
    if why = .errc .notFound then
      match ← Files.checkpoint with
      | .error why => return .error why
      | .ok _ => Files.createDirectories home
    else return .error why
  | .ok status => return if status.kind = .directory then .ok () else .error (.errc .wrongContext)

/-- The directory, and then the sync of the one it is in. -/
def syncMade (home : δ × ℓ) : Turn δ ℓ (Except Fault Unit) := do
  match ← makeDirectory home with
  | .error why => return .error why
  | .ok _ => Files.syncDirectory home.1

/-- `detail::ensure_local_directory`. -/
def ensureLocalDirectory (home : δ × ℓ) : Turn δ ℓ (Except Fault Unit) := do
  match ← Files.inspect home.1 with
  | .error why => return .error why
  | .ok _ =>
    match ← Files.openDirectory home.1 with
    | .error why => return .error why
    | .ok _ =>
      let synced ← syncMade home
      let closed ← Files.closeDirectory home.1
      match synced, closed with
      | .error why, _ => return .error why
      | .ok _, closed => return closed

/-- `local_spares::prepare`. -/
def prepare (s : Pool δ ℓ ν) : Turn δ ℓ (Except Fault Unit × Pool δ ℓ ν) := do
  if s.ready then return (.ok (), s)
  match s.directory with
  | .error why => return (.error (.errc why), s)
  | .ok _ =>
    match ← ensureLocalDirectory s.home with
    | .error why => return (.error why, s)
    | .ok _ => return (.ok (), { s with ready := true })

/-- The rename of a move in, the sync of the directory the file left, and then its place among the
    spares. -/
def bring (s : Pool δ ℓ ν) (from_ to_ : δ × ℓ) (name : ν) (bytes : Nat) :
    Turn δ ℓ (Except Fault Bool × Pool δ ℓ ν) := do
  let renamed ← Files.rename from_ to_
  match renamed.result with
  | .error why =>
    if why = .errc .notFound ∨ why = .errc .alreadyExists then return (.ok false, s)
    return (.error why, s)
  | .ok _ =>
    -- the name it left goes first: until its directory is synced the spare directory is not
    match ← sync from_.1 with
    | .error why => return (.error why, s)
    | .ok _ => return (.ok true, { s.push name bytes with unsettled := true })

/-- `local_spares::move_in`. -/
def moveIn (s : Pool δ ℓ ν) (from_ : δ × ℓ) (name : ν) (within : Option Nat) :
    Turn δ ℓ (Except Fault Bool × Pool δ ℓ ν) := do
  if s.bound ≤ s.entries.length then return (.ok false, s)
  match ← Files.stat from_ with
  | .error why =>
    if why = .errc .notFound then return (.ok false, s)
    return (.error why, s)
  | .ok status =>
    if status.kind ≠ .regular then return (.ok false, s)
    if within.any fun within =>
        decide (u64Max < s.bytes + status.size) || decide (within < s.bytes + status.size) then
      return (.ok false, s)
    match ← prepare s with
    | (.error why, s) => return (.error why, s)
    | (.ok _, s) =>
      match s.path name with
      | .error why => return (.error (.errc why), s)
      | .ok to_ => bring s from_ to_ name status.size

/-- `local_spares::settle`. -/
def settle (s : Pool δ ℓ ν) : Turn δ ℓ (Except Fault Unit × Pool δ ℓ ν) := do
  if ¬ s.unsettled then return (.ok (), s)
  match s.directory with
  | .error why => return (.error (.errc why), s)
  | .ok directory =>
    match ← sync directory with
    | .error why => return (.error why, s)
    | .ok _ => return (.ok (), { s with unsettled := false })

/-- The loop of `local_spares::take`, over the spares there are. -/
def takeFrom (to_ : δ × ℓ) : Pool δ ℓ ν → List (ν × Nat) →
    Turn δ ℓ (Except Fault (Option Nat) × Pool δ ℓ ν)
  | s, [] => return (.ok none, s)
  | s, taken :: rest => do
    let s := s.pop taken rest
    match s.path taken.1 with
    | .error why => return (.error (.errc why), s)
    | .ok from_ =>
      let renamed ← Files.rename from_ to_
      match renamed.result with
      | .error why =>
        if why = .errc .notFound then takeFrom to_ s rest
        else return (.error why, s)
      | .ok _ =>
        match s.directory with
        | .error why => return (.error (.errc why), s)
        | .ok directory =>
          match ← sync directory with
          | .error why => return (.error why, s)
          | .ok _ => return (.ok (some taken.2), { s with unsettled := false })

/-- `local_spares::take`. -/
def take (s : Pool δ ℓ ν) (to_ : δ × ℓ) : Turn δ ℓ (Except Fault (Option Nat) × Pool δ ℓ ν) :=
  takeFrom to_ s s.entries

/-- The loop of `local_spares::trim`. -/
def trimFrom (keep : Nat) : Pool δ ℓ ν → List (ν × Nat) →
    Turn δ ℓ (Except Fault Unit × Pool δ ℓ ν)
  | s, [] => return (.ok (), s)
  | s, taken :: rest => do
    if rest.length + 1 ≤ keep then return (.ok (), s)
    match ← Files.checkpoint with
    | .error why => return (.error why, s)
    | .ok _ =>
      let s := s.pop taken rest
      match s.path taken.1 with
      | .error why => return (.error (.errc why), s)
      | .ok at_ =>
        let gone ← Files.removeFile at_
        match gone.result with
        | .error why =>
          if why = .errc .notFound then trimFrom keep s rest
          else return (.error why, s)
        | .ok _ => trimFrom keep s rest

/-- `local_spares::trim`. -/
def trim (s : Pool δ ℓ ν) (keep : Nat) : Turn δ ℓ (Except Fault Unit × Pool δ ℓ ν) :=
  trimFrom keep s s.entries

/-- `local_spares_found`. -/
structure Found where
  adopted : Nat := 0
  removed : Nat := 0
  other : Nat := 0
  deriving DecidableEq

/-- What `adopt` makes of one page, with what went wrong. -/
def adoptPage (fits : Nat → Bool) (directory : δ) :
    Pool δ ℓ ν → Found → List (ℓ × FileKind) →
      Turn δ ℓ (Except Fault Unit × Found × Pool δ ℓ ν)
  | s, found, [] => return (.ok (), found, s)
  | s, found, (leaf, kind) :: rest => do
    match s.parse leaf with
    | none => adoptPage fits directory s { found with other := found.other + 1 } rest
    | some name =>
      if kind ≠ .regular then
        adoptPage fits directory s { found with other := found.other + 1 } rest
      else
        match ← Files.stat (directory, leaf) with
        | .error why =>
          if why = .errc .notFound then adoptPage fits directory s found rest
          else return (.error why, found, s)
        | .ok status =>
          if s.entries.length < s.bound ∧ fits status.size then
            adoptPage fits directory (s.push name status.size)
              { found with adopted := found.adopted + 1 } rest
          else
            let gone ← Files.removeFile (directory, leaf)
            match gone.result with
            | .error why =>
              if why = .errc .notFound then
                adoptPage fits directory s { found with removed := found.removed + 1 } rest
              else return (.error why, found, s)
            | .ok _ => adoptPage fits directory s { found with removed := found.removed + 1 } rest

/-- The pages of a listing, of which there are no more than the fuel. -/
def adoptPages (fits : Nat → Bool) (directory : δ) :
    Nat → Pool δ ℓ ν → Found → Turn δ ℓ (Except Fault Unit × Found × Pool δ ℓ ν)
  | 0, s, found => return (.ok (), found, s)
  | fuel + 1, s, found => do
    match ← Files.checkpoint with
    | .error why => return (.error why, found, s)
    | .ok _ =>
      match ← Files.next directory with
      | .error why => return (.error why, found, s)
      | .ok page =>
        match ← adoptPage fits directory s found page.entries with
        | (.error why, found, s) => return (.error why, found, s)
        | (.ok _, found, s) =>
          if page.last then return (.ok (), found, s)
          adoptPages fits directory fuel s found

/-- `local_spares::adopt`. -/
def adopt (s : Pool δ ℓ ν) (fits : Nat → Bool) (fuel : Nat) :
    Turn δ ℓ (Except Fault Found × Pool δ ℓ ν) := do
  match s.directory with
  | .error why => return (.error (.errc why), s)
  | .ok directory =>
    match ← Files.inspect directory with
    | .error why => return (.error why, s)
    | .ok _ =>
      match ← Files.openDirectory directory with
      | .error why =>
        if why = .errc .notFound then return (.ok {}, s)
        return (.error why, s)
      | .ok _ =>
        let (listed, found, s) ← adoptPages fits directory fuel s {}
        let closed ← Files.closeDirectory directory
        match settled listed closed with
        | .error why => return (.error why, s)
        | .ok _ => return (.ok found, { s with ready := true })

end Pool

/-! ## The file system -/

/-- The directories, and the renames that no sync of the directory they left has followed: the file,
    the directory it left and the one it is in. -/
structure World (δ ℓ φ : Type) where
  dirs : Directories δ ℓ φ
  moved : List (φ × δ × δ) := []

namespace World

variable {δ ℓ φ : Type} [DecidableEq δ] [DecidableEq ℓ]

/-- A rename: one that was made had a file to move and a free name for it. -/
def renamed (w : World δ ℓ φ) (from_ to_ : δ × ℓ) (change : Change) : Option (World δ ℓ φ) :=
  if change.made then
    match w.dirs.now from_.1 from_.2, w.dirs.now to_.1 to_.2 with
    | some file, none => some {
        dirs := w.dirs.move from_ to_ file
        moved := if from_.1 = to_.1 then w.moved else (file, from_.1, to_.1) :: w.moved }
    | _, _ => none
  else if change.result.isOk then none
  else some w

/-- A removal. -/
def removed (w : World δ ℓ φ) (at_ : δ × ℓ) (change : Change) : Option (World δ ℓ φ) :=
  if change.made then
    if (w.dirs.now at_.1 at_.2).isSome then some { w with dirs := w.dirs.remove at_ } else none
  else if change.result.isOk then none
  else some w

/-- The sync of a directory. -/
def synced (w : World δ ℓ φ) (directory : δ) : Except Fault Unit → World δ ℓ φ
  | .ok _ => {
      dirs := w.dirs.sync directory
      moved := w.moved.filter fun move => decide (move.2.1 ≠ directory) }
  | .error _ => w

/-- What an answer to a command does; none where the file system cannot give it. -/
def step (w : World δ ℓ φ) : (e : Command δ ℓ) → Answer e → Option (World δ ℓ φ)
  | .rename from_ to_, change => w.renamed from_ to_ change
  | .removeFile at_, change => w.removed at_ change
  | .syncDirectory directory, result => some (w.synced directory result)
  | _, _ => some w

/-- The command failed. -/
def failed : (e : Command δ ℓ) → Answer e → Bool
  | .rename _ _, (change : Change) => !change.result.isOk
  | .removeFile _, (change : Change) => !change.result.isOk
  | .stat _, (result : Except Fault Status) => !result.isOk
  | .next _, (result : Except Fault (Page ℓ)) => !result.isOk
  | .inspect _, (result : Except Fault Unit) => !result.isOk
  | .openDirectory _, (result : Except Fault Unit) => !result.isOk
  | .syncDirectory _, (result : Except Fault Unit) => !result.isOk
  | .closeDirectory _, (result : Except Fault Unit) => !result.isOk
  | .createDirectories _, (result : Except Fault Unit) => !result.isOk
  | .checkpoint, (result : Except Fault Unit) => !result.isOk

/-- A rename that failed was not made. -/
def unmade : (e : Command δ ℓ) → Answer e → Bool
  | .rename _ _, (change : Change) => change.result.isOk || !change.made
  | _, _ => true

/-- A rename that fails moves nothing, and nothing fails between a rename and the sync of the
    directory it left. -/
def fine (w : World δ ℓ φ) (e : Command δ ℓ) (r : Answer e) : Bool :=
  unmade e r && (w.moved.isEmpty || !failed e r)

/-- The steps of which that is so. -/
def fineStep (w : World δ ℓ φ) (e : Command δ ℓ) (r : Answer e) : Option (World δ ℓ φ) :=
  if w.fine e r then w.step e r else none

end World

/-! ## Turns -/

/-- A turn of the owner, or a sync of any directory by whoever took a spare. -/
inductive Call (δ ℓ ν : Type)
  | moveIn (from_ : δ × ℓ) (name : ν) (within : Option Nat)
  | settle
  | take (to_ : δ × ℓ)
  | trim (keep : Nat)
  | adopt (fits : Nat → Bool) (fuel : Nat)
  | syncElsewhere (directory : δ)

variable {δ ℓ ν φ : Type}

/-- What a call makes of the owner. -/
def turn (s : Pool δ ℓ ν) : Call δ ℓ ν → Turn δ ℓ (Pool δ ℓ ν)
  | .moveIn from_ name within => do return (← s.moveIn from_ name within).2
  | .settle => do return (← s.settle).2
  | .take to_ => do return (← s.take to_).2
  | .trim keep => do return (← s.trim keep).2
  | .adopt fits fuel => do return (← s.adopt fits fuel).2
  | .syncElsewhere directory => do
    let _ ← Pool.sync directory
    return s

/-- An owner begins with no spare, in directories of which a crash leaves each file one name. -/
def Begins (s : Pool δ ℓ ν) (w : World δ ℓ φ) : Prop :=
  s.entries = [] ∧ s.unsettled = false ∧ w.moved = [] ∧ w.dirs.Apart

end KwaqueStorage.Spares
