import KwaqueStorage.Checkpoint.State
import KwaqueStorage.Lib.Runs

/-!
# The steps of a checkpoint owner and its control record

One step for each stretch of `local_checkpoint::run`, `local_control_owner::update` and the passes
of a reopen between two waits, under whatever the files, the append owner and the pin table
answered. Between any two steps holds come and go, the other owners of the control update it, the
WAL writer names a new head, and the process may stop.
-/

namespace KwaqueStorage.Checkpoint

/-- What the append owner and the pin table answered while a cut was taken. -/
structure CutAnswer where
  obligations : Option Obligations
  observed : Bool
  lingering : Bool
  captured : Bool
  deriving DecidableEq

/-- What another owner of the control asks for. -/
inductive Edit
  | reserveObjects (count : Nat)
  | reserveWal (count : Nat)
  | reserveDecisions (count : Nat)
  | reserveDeletions (count : Nat)
  | walHead (old : Option WalHead) (head : WalHead)
  deriving DecidableEq

/-- How `publish_local_bundle` ended. A publication that failed may have left the name. -/
inductive BundleAnswer
  | durable
  | failed (named : Bool)
  deriving DecidableEq

/-- How `publish` ended after its rename was asked for. `clean` says nothing failed after the
    directory sync. -/
inductive RenameAnswer
  | uncertain
  | durable (clean : Bool)
  deriving DecidableEq

inductive Event
  /-- The process stops. -/
  | stop
  /-- `local_control_owner::open`: the record found in place, whether its root could be read and
      whether it could be confirmed durable; with what the restart found of the WAL. -/
  | open_ (record : Nat) (read confirmed : Bool) (retained : List Nat) (walRecovered : Bool)
  /-- `remove_stale_checkpoints` and `remove_wal_below` begin, take one name, and end. -/
  | sweepBundles
  | sweepBundle (sequence : Nat) (removal : Removal)
  | sweepWal
  | sweepWalFile (incarnation : Nat) (removal : Removal)
  | sweepDone
  /-- `local_checkpoint::make`, `restore` and `recovered`. -/
  | make (origin : Cursor)
  | restore
  | recover
  /-- `hold_cutoff`, and a hold given back. -/
  | hold
  | unhold (index : Nat)
  | letGo
  /-- An exception of no expected family. -/
  | fail
  /-- A run that waits for no update of its own ends with an exception. -/
  | thrown
  /-- The stretches of a run. -/
  | cut (answer : CutAnswer)
  | pinned (ok : Bool)
  | allocated (ok : Bool)
  | encoded (digest : Option Nat)
  | bundled (answer : BundleAnswer)
  | retired (removal : Removal)
  | settled (removal : Removal)
  | reclaimed (removal : Removal)
  /-- The updates of the control: refused at the entrance, given their turn, and their stages. -/
  | refused
  | turn
  | ask (edit : Edit)
  | loaded (ok : Bool)
  | abandoned (fences : Bool)
  | renamed
  | published (answer : RenameAnswer) (adopted : Bool)
  /-- Another object takes a sequence; the WAL writer names a new head. -/
  | burn
  | extended (file : Nat)
  deriving DecidableEq

/-! ## The run -/

namespace Checkpointer

/-- The stretch of `run` up to its first wait. -/
def cut (c : Checkpointer) (head : Head) (walRecovered : Bool) (a : CutAnswer) : Checkpointer :=
  let lettingGo := c.lettingGo
  let c := { c with lettingGo := false }
  if c.failed then c
  else
    match a.obligations with
    | none => c
    | some o =>
      -- `snapshot` refuses a fenced control
      if head.fenced then c
      else if head.current.checkpoint ≠ c.continues ∨ (walRecovered ∧ ¬ c.recovered) then c
      else
        let begin_ := head.checkpointEnd.getD c.origin
        let held := if c.holds = [] then none else some begin_
        match checkpointCutoff o held begin_ with
        | .error _ => c
        | .ok end_ =>
          if a.observed = false then c
          else if end_ = begin_ ∧ ¬ (lettingGo ∧ a.lingering) then
            { c with phase := .settling [] c.debts }
          else if a.captured = false then c
          else { c with phase := .pinning ⟨head.current.checkpoint, begin_, end_⟩ }

/-- The edit of the head: only from the head the cut was taken under, and a hold wins. -/
def edit (c : Checkpointer) (cut : Cut) (reference : Reference) (fields : Control) :
    Option Control :=
  if fields.checkpoint ≠ cut.replaced then none
  else if c.holds ≠ [] then none
  else some { fields with checkpoint := some reference }

/-- After an update that touched nothing: the bundle is referenced by nothing, so it goes, unless
    the control is fenced. -/
def untouched (c : Checkpointer) (reference : Reference) (fenced : Bool) : Checkpointer :=
  let c := { c with publishing := false }
  if fenced then { c with failed := true, phase := .idle }
  else { c with phase := .retiring reference.sequence }

/-- After an update that may have moved the head. -/
def ended (c : Checkpointer) : Checkpointer :=
  { c with publishing := false, failed := true, phase := .idle }

/-- After an update that moved the head. -/
def moved (c : Checkpointer) (cut : Cut) (reference : Reference) (adopted : Bool) : Checkpointer :=
  let debts := cut.replaced.elim c.debts fun r => owe c.debts r.sequence
  { c with
    publishing := false
    failed := c.failed || !adopted
    continues := if adopted then some reference else c.continues
    debts
    phase := .settling [] debts }

end Checkpointer

/-- The next stretch after the debts: the WAL below the durable cutoff, if there is one. -/
def reclaim (head : Head) : Phase := head.checkpointEnd.elim .idle .reclaiming

/-- Whether the checkpoint's own update has the turn. -/
def Head.updates (h : Head) : Bool := h.turn.any fun u => decide (u.owner = .checkpoint)

/-- The run that waits for `phase` goes on. -/
def Process.withPhase (p : Process) (c : Checkpointer) (phase : Phase) : Process :=
  { p with checkpointer := some { c with phase } }

/-! ## The control -/

/-- What another owner's edit makes of the fields. -/
def Edit.apply (fields : Control) : Edit → Option Control
  | .reserveObjects count => some { fields with objectHigh := fields.objectHigh + count }
  | .reserveWal count => some { fields with walHigh := fields.walHigh + count }
  | .reserveDecisions count => some { fields with decisionHigh := fields.decisionHigh + count }
  | .reserveDeletions count => some { fields with deletionHigh := fields.deletionHigh + count }
  | .walHead old head => if fields.walHead ≠ old then none else some { fields with walHead := head }

def Edit.owner (fields : Control) : Edit → Owner
  | .reserveObjects count => .allocator fields.objectHigh count
  | _ => .other

/-- `load_local_checkpoint_root`: the root of the bundle a reference names. -/
def Device.root (d : Device) (reference : Reference) (ok : Bool) : Option Root :=
  match d.bundles reference.sequence with
  | some b => if ok ∧ b.reference = reference then some b.root else none
  | none => none

/-- The end of a candidate's new checkpoint, where its root continues the durable one. -/
def Head.continued (h : Head) (d : Device) (candidate : Control) (ok : Bool) :
    Option (Option Cursor) :=
  if candidate.checkpoint = h.current.checkpoint then if ok then some none else none
  else
    match candidate.checkpoint with
    | none => if ok then some none else none
    | some reference =>
      match d.root reference ok with
      | none => none
      | some root =>
        if h.checkpointEnd.any (fun e => decide (root.begin_ ≠ e)) then none
        else some (some root.end_)

/-- The update in its turn ended with nothing touched. -/
def Process.untouched (p : Process) (u : Update) (fences : Bool) : Process :=
  let p := { p with head := { p.head with turn := none, fenced := p.head.fenced || fences } }
  match u.owner, p.checkpointer with
  | .checkpoint, some c =>
    match c.phase with
    | .updating _ reference =>
      { p with checkpointer := some (c.untouched reference p.head.fenced) }
    | _ => p
  | _, _ => p

/-- The update in its turn ended after its rename was asked for. -/
def Process.published (p : Process) (u : Update) (answer : RenameAnswer) (adopted : Bool) :
    Process :=
  match answer with
  | .uncertain =>
    let p := { p with head := { p.head with turn := none, fenced := true } }
    match u.owner, p.checkpointer with
    | .checkpoint, some c => { p with checkpointer := some c.ended }
    | _, _ => p
  | .durable clean =>
    let p := { p with
      head :=
        { current := u.candidate
          checkpointEnd := u.end_.or p.head.checkpointEnd
          fenced := p.head.fenced || !clean
          turn := none } }
    match u.owner, p.checkpointer with
    | .checkpoint, some c =>
      match c.phase with
      | .updating cut reference =>
        { p with checkpointer := some (if clean then c.moved cut reference adopted else c.ended) }
      | _ => p
    | .allocator start count, _ => if clean then { p with ids := ⟨start, count⟩ } else p
    | _, _ => p

/-- `local_control_owner::open` of the record in place. -/
def open_ (d : Device) (c : Control) (read : Bool) (retained : List Nat) (walRecovered : Bool) :
    Option Process :=
  if c.walHead.isNone ∧ c.checkpoint.isSome then none
  else
    match c.checkpoint with
    | none => some { head := ⟨c, none, false, none⟩, retained, walRecovered }
    | some reference =>
      (d.root reference read).map fun root =>
        { head := ⟨c, some root.end_, false, none⟩, retained, walRecovered }

/-! ## One step -/

/-- One stretch of the checkpoint owner's run, and what others ask of the owner meanwhile. -/
def runStep (d : Device) (p : Process) (c : Checkpointer) (event : Event) :
    Option (Device × Process) :=
  match c.phase, event with
  | _, .restore =>
    -- the table continues from the checkpoint the head names
    if c.phase ≠ .idle ∨ p.head.fenced then none
    else some (d, { p with checkpointer := some { c with
      continues := p.head.current.checkpoint } })
  | _, .recover => some (d, { p with checkpointer := some { c with recovered := true } })
  | _, .hold =>
    if c.failed ∨ c.publishing then none
    else some (d, { p with checkpointer := some { c with
      holds := c.holds ++ [p.head.checkpointEnd] } })
  | _, .unhold index =>
    some (d, { p with checkpointer := some { c with holds := c.holds.eraseIdx index } })
  | _, .letGo =>
    if c.failed then none
    else some (d, { p with checkpointer := some { c with lettingGo := true } })
  | _, .fail => some (d, { p with checkpointer := some { c with failed := true } })
  | _, .thrown => if p.head.updates then none else some (d, p.withPhase c .idle)
  | .idle, .cut answer =>
    some (d, { p with checkpointer := some (c.cut p.head p.walRecovered answer) })
  | .pinning cut, .pinned ok =>
    some (d, p.withPhase c (if ok then .allocating cut else .idle))
  | .allocating cut, .allocated ok =>
    -- a range with sequences left serves them
    if ok = false then some (d, p.withPhase c .idle)
    else if p.head.fenced = false ∧ p.ids.remaining ≠ 0 then
      let sequence := p.ids.current + 1
      some (d, { p.withPhase c (.encoding cut sequence) with
        ids := ⟨sequence, p.ids.remaining - 1⟩ })
    else none
  | .encoding cut sequence, .encoded digest =>
    some (d, p.withPhase c (digest.elim .idle fun x => .bundling cut ⟨sequence, x⟩))
  | .bundling cut reference, .bundled answer =>
    let bundle : Bundle := ⟨reference, ⟨cut.begin_, cut.end_⟩, decide (answer = .durable)⟩
    let named := d.addBundle reference.sequence bundle
    match answer with
    | .durable => some (named, p.withPhase c (.updating cut reference))
    | .failed name =>
      some (if name then named else d,
        p.withPhase { c with debts := owe c.debts reference.sequence } .idle)
  | .updating _ reference, .refused =>
    if p.head.updates then none
    else some (d, { p with checkpointer := some (c.untouched reference p.head.fenced) })
  | .updating cut reference, .turn =>
    if p.head.fenced ∨ p.head.turn.isSome then none
    else
      match c.edit cut reference p.head.current with
      | none => some (d, { p with checkpointer := some (c.untouched reference false) })
      | some candidate =>
        if controlProgress p.head.current candidate = false then
          some (d, { p with checkpointer := some (c.untouched reference false) })
        else
          let u : Update := { owner := .checkpoint, candidate }
          some (d, { p with
            head := { p.head with turn := some u }
            checkpointer := some { c with publishing := true } })
  | .retiring sequence, .retired removal =>
    let debts := if removal.told then c.debts else owe c.debts sequence
    some (d.removeBundle sequence removal, p.withPhase { c with debts } .idle)
  | .settling kept [], .settled _ =>
    some (d, p.withPhase { c with debts := kept } (reclaim p.head))
  | .settling kept (sequence :: todo), .settled removal =>
    let kept := if removal.told then kept else kept ++ [sequence]
    some (d.removeBundle sequence removal, p.withPhase c (.settling kept todo))
  | .reclaiming cutoff, .reclaimed removal =>
    match below p.retained cutoff, p.retained with
    | _ + 1, oldest :: _ =>
      -- the first file that cannot be removed ends it
      if removal.told then
        some (d.removeWal oldest removal, { p with retained := dropOldest p.retained })
      else some (d.removeWal oldest removal, p.withPhase c .idle)
    | _, _ => some (d, p.withPhase c .idle)
  | _, _ => none

/-- One step of a live process. -/
def act (d : Device) (p : Process) : Event → Option (Device × Process)
  | .sweepBundles =>
    if p.checkpointer.isNone ∧ p.sweep.isNone ∧ p.head.fenced = false then
      some (d, { p with sweep := some (.bundles p.head.current.checkpoint) })
    else none
  | .sweepBundle sequence removal =>
    match p.sweep with
    | some (.bundles kept) =>
      if kept.any (fun r => decide (r.sequence = sequence)) then none
      else some (d.removeBundle sequence removal, p)
    | _ => none
  | .sweepWal =>
    if p.checkpointer.isNone ∧ p.sweep.isNone then
      some (d, { p with sweep := some (.wal p.head.checkpointEnd) })
    else none
  | .sweepWalFile incarnation removal =>
    match p.sweep with
    | some (.wal (some durable)) =>
      if incarnation < durable.incarnation then some (d.removeWal incarnation removal, p) else none
    | _ => none
  | .sweepDone => if p.sweep.isSome then some (d, { p with sweep := none }) else none
  | .make origin =>
    if p.checkpointer.isSome ∨ p.sweep.isSome then none
    else if p.head.checkpointEnd = none ∧ p.retained.head? ≠ some origin.incarnation then none
    else some (d, { p with checkpointer := some { origin } })
  | .extended file => (extend p.retained file).map fun retained => (d, { p with retained })
  | .burn =>
    if p.head.fenced = false ∧ p.ids.remaining ≠ 0 then
      some (d, { p with ids := ⟨p.ids.current + 1, p.ids.remaining - 1⟩ })
    else none
  | .ask edit =>
    if p.head.fenced ∨ p.head.turn.isSome then none
    else
      match edit.apply p.head.current with
      | none => none
      | some candidate =>
        if controlProgress p.head.current candidate = false then none
        else
          let u : Update := { owner := edit.owner p.head.current, candidate }
          some (d, { p with head := { p.head with turn := some u } })
  | .loaded ok =>
    match p.head.turn with
    | some u =>
      if u.stage ≠ .edited then none
      else
        match p.head.continued d u.candidate ok with
        | none => some (d, p.untouched u false)
        | some end_ =>
          some (d, { p with head := { p.head with
            turn := some { u with end_, stage := .loaded } } })
    | none => none
  | .abandoned fences =>
    match p.head.turn with
    | some u => if u.stage ≠ .loaded then none else some (d, p.untouched u fences)
    | none => none
  | .renamed =>
    match p.head.turn with
    | some u =>
      if u.stage ≠ .loaded then none
      else
        some ({ d with records := u.candidate :: d.records },
          { p with head := { p.head with turn := some { u with stage := .renamed } } })
    | none => none
  | .published answer adopted =>
    match p.head.turn with
    | some u =>
      if u.stage ≠ .renamed then none
      else
        some (if answer = .uncertain then d else { d with records := [u.candidate] },
          p.published u answer adopted)
    | none => none
  | event => p.checkpointer.bind fun c => runStep d p c event

/-- One step of the shard. -/
def step (s : State) (event : Event) : Option State :=
  match s.process, event with
  | some _, .stop => some { s with process := none }
  | some p, event => (act s.device p event).map fun (device, p) => ⟨device, some p⟩
  | none, .open_ record read confirmed retained walRecovered =>
    match s.device.records[record]? with
    | none => none
    | some c =>
      if confirmed = false then some s
      else
        -- confirmed, the record found in place is the only one that may be durable
        (open_ s.device c read retained walRecovered).map fun p =>
          ⟨{ s.device with records := [c] }, some p⟩
  | none, _ => none

/-- A store as it is bootstrapped. -/
def initial (s : State) : Prop :=
  s = { device := { records := [{}] }, process := none }

/-- The runs of a shard, over any number of processes. -/
def system : Lib.System State Event := ⟨initial, step⟩

end KwaqueStorage.Checkpoint
