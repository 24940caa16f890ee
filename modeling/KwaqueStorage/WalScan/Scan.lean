import KwaqueStorage.Scan.Reader

/-!
# Scanning the WAL

`scan_local_wal` with `scan_wal_head_content` and `probe_wal_head`: the chain of WAL files from
the oldest to the head, each read PREPARE by PREPARE.

The head is read up to three times. A first pass over the claims alone finds where its last
whole write ends; the visiting pass resolves and decodes what lies before that and shows it to
the visitor; and where the scan is asked to prove, a probe reads on after the content for
PREPAREs that survive there. All three are loops over a reader here, each turn one slot.

What the loops ask of the codec, of the target catalog and of the visitor are parameters. A
read, a budget or an abort that fails ends the source's scan with that failure and without a
report, at any point; these are left out, and the failures that remain are those the bytes and
the catalog decide.
-/

namespace KwaqueStorage.WalScan

open Scan

/-- `wal_scan_stop`. -/
inductive ScanStop
  | end_
  | unwritten
  | torn
  | corrupt
  | malformed
  | foreign
  deriving DecidableEq

/-- `wal_target_resolution`. -/
inductive TargetResolution
  | resolved
  | unknown
  | misplaced
  deriving DecidableEq

/-- `wal_prepare_claims`, as far as a scan reads them. -/
structure Claims where
  incarnation : Nat
  walPosition : Nat
  alignment : Nat
  profile : Nat
  target : Nat
  routingEpoch : Nat
  physicalBegin : Nat
  targetPosition : Nat
  /-- Its stamps: whether it ends its write, and how far the WAL was certified. -/
  endsWrite : Bool
  walCertifiedEnd : Nat
  deriving DecidableEq

/-- `wal_target`. -/
structure Target where
  segment : Nat
  alignment : Nat
  dataStart : Nat
  profile : Nat
  device : Nat
  deriving DecidableEq

/-- A WAL file's identity: what its descriptor says of it. -/
structure Identity where
  incarnation : Nat
  alignment : Nat
  profile : Nat
  dataStart : Nat
  alignment_pos : 0 < alignment := by decide

instance : DecidableEq Identity := fun a b =>
  decidable_of_iff (a.incarnation = b.incarnation ∧ a.alignment = b.alignment ∧ a.profile = b.profile
    ∧ a.dataStart = b.dataStart) (by cases a; cases b; simp)

/-- `wal_prepare_expectation`. -/
structure Expectation where
  identity : Identity
  position : Nat
  target : Target
  physicalBegin : Nat
  targetPosition : Nat
  routingEpoch : Nat
  deriving DecidableEq

/-- `decode_wal_prepare_resolved` in its two halves: the claims, read once the envelope's
    checksums and its shape hold, and the decode under what the claims resolved to. With it, the
    digest of exact bytes. -/
structure PrepareCodec (Prepare : Type) extends Envelope where
  claims : List UInt8 → Except Errc Claims
  prepare : List UInt8 → Expectation → Except Errc Prepare
  digest : List UInt8 → Nat

/-- `wal_scanned_prepare`. -/
structure Visit (Prepare : Type) where
  begin_ : Cursor
  end_ : Cursor
  resolution : TargetResolution
  claims : Claims
  prepare : Option Prepare
  target : Option Target
  digest : Option Nat
  survival : Bool

/-- `wal_file_scan`. -/
structure FileScan where
  identity : Identity
  sealedEnd : Option Nat
  begin_ : Nat
  contentEnd : Nat
  provenEnd : Nat
  fileBytes : Nat := 0
  prepares : Nat := 0
  unresolved : Nat := 0
  stop : ScanStop := .end_
  cause : Option Errc := none
  slack : Nat := 0
  nonzeroSlack : Bool := false
  deriving DecidableEq

/-- `wal_scan_limits`, less its sizes. -/
structure Limits where
  digests : Bool := false
  prove : Bool := false
  liveEnd : Option Cursor := none
  windowBytes : Nat := 131072
  deriving DecidableEq

/-- The codes that fail a scan where they come from a decode, and are no finding about bytes. -/
def failsScan : Errc → Bool
  | .unsupportedFormat | .resourceExhausted | .aborted | .invalidArgument => true
  | _ => false

/-- `wal_decode_stop`. -/
def walDecodeStop : Errc → ScanStop
  | .corruptData => .corrupt
  | .wrongContext => .foreign
  | _ => .malformed

/-- Whether claims are those of a PREPARE of this file at this position. -/
def Identity.owns (identity : Identity) (position : Nat) (claims : Claims) : Bool :=
  decide (claims.incarnation = identity.incarnation) && decide (claims.walPosition = position)
    && decide (claims.alignment = identity.alignment) && decide (claims.profile = identity.profile)

/-! ## Resolving a PREPARE -/

/-- What `resolve_wal_prepare` answers. -/
inductive Resolving
  | foreign
  | failed (why : Errc)
  | refused (why : TargetResolution)
  | expected (what : Expectation)

/-- `resolve_wal_prepare`. The catalog is asked only for a PREPARE of this file and position. -/
def resolveWalPrepare (identity : Identity) (position : Nat)
    (resolve : Nat → Except Errc (Option Target)) (claims : Claims) : Resolving :=
  if identity.owns position claims = false then .foreign
  else
    match resolve claims.target with
    | .error why => .failed why
    | .ok none => .refused .unknown
    | .ok (some target) =>
      if target.segment ≠ claims.target then .failed .invalidArgument
      -- the nil incarnation
      else if identity.incarnation = 0 then .failed .invariantViolation
      else if claims.targetPosition < target.dataStart then .refused .misplaced
      else .expected ⟨identity, position, target, claims.physicalBegin, claims.targetPosition,
        claims.routingEpoch⟩

/-- What the visiting pass makes of an object. -/
inductive Decoded (Prepare : Type)
  /-- The scan fails. -/
  | failed (why : Errc)
  /-- The scan stops here. -/
  | stop (why : ScanStop) (cause : Errc)
  /-- A PREPARE to visit. -/
  | visit (claims : Claims) (resolution : TargetResolution) (prepare : Option Prepare)
      (target : Option Target)

section

variable {Prepare : Type} (codec : PrepareCodec Prepare)

/-- An error of a decode: it fails the scan or stops it. -/
def decodeError (code : Errc) (stop : ScanStop) : Decoded Prepare :=
  if failsScan code then .failed code else .stop stop code

/-- `decode_wal_prepare_resolved`, as the visiting pass calls it. -/
def decodeResolved (identity : Identity) (position : Nat)
    (resolve : Nat → Except Errc (Option Target)) (bytes : List UInt8) : Decoded Prepare :=
  match codec.claims bytes with
  | .error code => decodeError code (walDecodeStop code)
  | .ok claims =>
    match resolveWalPrepare identity position resolve claims with
    | .failed why => .failed why
    | .foreign => decodeError .wrongContext .foreign
    | .refused why => .visit claims why none none
    | .expected what =>
      match codec.prepare bytes what with
      | .error code => decodeError code (walDecodeStop code)
      | .ok prepare => .visit claims .resolved (some prepare) (some what.target)

/-! ## The content pass -/

/-- `wal_head_content`. -/
structure HeadContent where
  end_ : Nat
  stop : ScanStop := .end_
  cause : Option Errc := none
  deriving DecidableEq

/-- The loop of `scan_wal_head_content` at a position, `open_` inside a write. `left` is no less
    than the bytes left, so that at zero the slot is the end. -/
def contentPass (identity : Identity) (file : List UInt8) (end_ : Nat) :
    (left position : Nat) → (open_ : Bool) → HeadContent → Except Errc HeadContent
  | 0, _, open_, output => .ok { output with stop := if open_ then .torn else .end_ }
  | left + 1, position, open_, output =>
    match classify codec.toEnvelope file position end_ with
    | .error why => .error why
    | .ok .end_ => .ok { output with stop := if open_ then .torn else .end_ }
    | .ok .zero => .ok { output with stop := if open_ then .torn else .unwritten }
    | .ok .torn => .ok { output with stop := .torn }
    | .ok (.corrupt cause) => .ok { output with stop := .corrupt, cause := some cause }
    | .ok (.malformed cause) => .ok { output with stop := .malformed, cause := some cause }
    | .ok (.object bytes) =>
      match codec.claims bytes with
      | .error code =>
        if failsScan code then .error code
        else .ok { output with stop := walDecodeStop code, cause := some code }
      | .ok claims =>
        if identity.owns position claims = false then .ok { output with stop := .foreign }
        else
          let next := position + bytes.length
          contentPass identity file end_ left next (!claims.endsWrite)
            (if claims.endsWrite then { output with end_ := next } else output)

/-- `scan_wal_head_content`. A begin off the boundary is inside a write. -/
def scanWalHeadContent (identity : Identity) (file : List UInt8) (begin_ end_ : Nat) :
    Except Errc HeadContent :=
  contentPass codec identity file end_ (end_ - begin_) begin_
    (decide (begin_ % identity.alignment ≠ 0)) { end_ := begin_ }

/-! ## The visiting pass -/

/-- What a pass leaves: the report, what it showed the visitor, and whether the visitor
    stopped it. -/
structure Pass (Prepare : Type) where
  report : FileScan
  visits : List (Visit Prepare) := []
  stopped : Bool := false
  /-- The end of the last whole write passed, and the WAL stamp of the last PREPARE. -/
  writeEnd : Nat
  stamp : Nat

variable (limits : Limits) (resolve : Nat → Except Errc (Option Target))
  (proceed : Visit Prepare → Bool)

/-- A PREPARE of the content, as its visitor is shown it. -/
def contentOf (identity : Identity) (position : Nat) (bytes : List UInt8) (claims : Claims)
    (resolution : TargetResolution) (prepare : Option Prepare) (target : Option Target) :
    Visit Prepare :=
  { begin_ := ⟨identity.incarnation, position⟩
    end_ := ⟨identity.incarnation, position + bytes.length⟩
    resolution, claims, prepare, target
    digest := if prepare.isSome && limits.digests then some (codec.digest bytes) else none
    survival := false }

/-- One PREPARE shown to the visitor and passed. -/
def Pass.visit (pass : Pass Prepare) (identity : Identity) (position : Nat) (bytes : List UInt8)
    (claims : Claims) (resolution : TargetResolution) (prepare : Option Prepare)
    (target : Option Target) : Pass Prepare :=
  let next := position + bytes.length
  let shown := contentOf codec limits identity position bytes claims resolution prepare target
  { pass with
    report := { pass.report with
      contentEnd := next
      provenEnd := max pass.report.provenEnd claims.walCertifiedEnd
      prepares := pass.report.prepares + 1
      unresolved := pass.report.unresolved + if resolution = .resolved then 0 else 1 }
    visits := pass.visits ++ [shown]
    stopped := !proceed shown
    writeEnd := if claims.endsWrite then next else pass.writeEnd
    stamp := claims.walCertifiedEnd }

/-- The pass stops at a slot that is no object. -/
def Pass.stopAt (pass : Pass Prepare) (stop : ScanStop) (cause : Option Errc) : Pass Prepare :=
  { pass with report := { pass.report with stop, cause } }

/-- The loop of the visiting pass. -/
def visitPass (identity : Identity) (file : List UInt8) (end_ : Nat)
    (content : Option HeadContent) :
    (left position : Nat) → Pass Prepare → Except Errc (Pass Prepare)
  | 0, _, pass => .ok (atEnd pass)
  | left + 1, position, pass =>
    match classify codec.toEnvelope file position end_ with
    | .error why => .error why
    | .ok .end_ => .ok (atEnd pass)
    | .ok .zero => .ok (pass.stopAt .unwritten none)
    | .ok .torn => .ok (pass.stopAt .torn none)
    | .ok (.corrupt cause) => .ok (pass.stopAt .corrupt (some cause))
    | .ok (.malformed cause) => .ok (pass.stopAt .malformed (some cause))
    | .ok (.object bytes) =>
      match decodeResolved codec identity position resolve bytes with
      | .failed why => .error why
      | .stop why cause => .ok (pass.stopAt why (some cause))
      | .visit claims resolution prepare target =>
        -- the WAL stamp never moves back
        if claims.walCertifiedEnd < pass.stamp then
          .ok (pass.stopAt .malformed (some .malformedData))
        else
          let pass := pass.visit codec limits proceed identity position bytes claims resolution
            prepare target
          if pass.stopped then .ok pass
          else visitPass identity file end_ content left (position + bytes.length) pass
where
  /-- The head's content ended where the first pass found its damage. -/
  atEnd (pass : Pass Prepare) : Pass Prepare :=
    match content with
    | some found => pass.stopAt found.stop found.cause
    | none => pass.stopAt .end_ none

/-! ## The probe -/

/-- A PREPARE found after the content. -/
def survivalOf (identity : Identity) (position : Nat) (bytes : List UInt8) (claims : Claims) :
    Visit Prepare :=
  { begin_ := ⟨identity.incarnation, position⟩
    end_ := ⟨identity.incarnation, position + bytes.length⟩
    resolution := .unknown
    claims
    prepare := none
    target := none
    digest := none
    survival := true }

/-- The loop of `probe_wal_head`. What is no object is passed over at the next alignment
    boundary, where a write can begin. -/
def probeWalHead (identity : Identity) (file : List UInt8) (end_ : Nat) :
    (left position : Nat) → Pass Prepare → Except Errc (Pass Prepare)
  | 0, _, pass => .ok pass
  | left + 1, position, pass =>
    match classify codec.toEnvelope file position end_ with
    | .error why => .error why
    | .ok .end_ => .ok pass
    | .ok (.object bytes) =>
      let next := position + bytes.length
      match codec.claims bytes with
      | .error code =>
        if failsScan code then .error code
        else probeWalHead identity file end_ left next pass
      | .ok claims =>
        if identity.owns position claims = false then
          probeWalHead identity file end_ left next pass
        else
          let survival := survivalOf identity position bytes claims
          let pass := { pass with
            report := { pass.report with
              provenEnd := max pass.report.provenEnd claims.walCertifiedEnd }
            visits := pass.visits ++ [survival]
            stopped := !proceed survival }
          if pass.stopped then .ok pass
          else probeWalHead identity file end_ left next pass
    | .ok _ =>
      let next := (position / identity.alignment + 1) * identity.alignment
      if next ≥ end_ then .ok pass else probeWalHead identity file end_ left next pass

/-! ## One file, and the chain -/

/-- `wal_chain_link`, with the bytes of its file. -/
structure Link where
  identity : Identity
  sealedEnd : Option Nat
  file : List UInt8
  deriving DecidableEq

/-- Whether the live bound lies in a file. -/
def Limits.bounds (limits : Limits) (link : Link) : Bool :=
  limits.liveEnd.any fun live => decide (live.incarnation = link.identity.incarnation)

/-- The scan of one file of the chain begins. -/
def Link.fresh (link : Link) (cutoff : Option Cursor) : Pass Prepare :=
  let begin_ := ((cutoff.filter fun c => decide (c.incarnation = link.identity.incarnation)).map
    (·.position)).getD link.identity.dataStart
  { report :=
      { identity := link.identity
        sealedEnd := link.sealedEnd
        begin_
        contentEnd := begin_
        provenEnd := link.sealedEnd.getD begin_
        fileBytes := link.file.length }
    writeEnd := begin_
    stamp := link.identity.dataStart }

/-- Where the scan of a file ends. Past a live bound nothing is read. -/
def Link.scanEnd (link : Link) : Nat :=
  let end_ := link.sealedEnd.getD link.file.length
  match limits.liveEnd with
  | some live =>
    if live.incarnation = link.identity.incarnation then
      min (min end_ live.position) link.file.length
    else end_
  | none => end_

/-- A head whose content the first pass proved whole, but whose decode stopped inside a write,
    ends where that write began. -/
def Pass.rewind (pass : Pass Prepare) (content : HeadContent) : Pass Prepare :=
  if pass.stopped = false ∧ pass.report.contentEnd ≠ content.end_ then
    { pass with report := { pass.report with contentEnd := pass.writeEnd } }
  else pass

/-- The head after its content, where the scan is asked to prove. -/
def Pass.prove (pass : Pass Prepare) (link : Link) : Except Errc (Pass Prepare) :=
  if limits.prove ∧ pass.stopped = false ∧ pass.report.contentEnd < pass.report.fileBytes then
    probeWalHead codec proceed link.identity link.file pass.report.fileBytes
      (pass.report.fileBytes - pass.report.contentEnd) pass.report.contentEnd pass
  else .ok pass

/-- What a rotated file has after its sealed end. -/
def Pass.slack (pass : Pass Prepare) (link : Link) (sealedEnd : Nat) : Except Errc (Pass Prepare) :=
  if pass.stopped ∨ pass.report.stop ≠ .end_ ∨ pass.report.fileBytes = sealedEnd then .ok pass
  else
    match classify codec.toEnvelope link.file sealedEnd
        (min pass.report.fileBytes (sealedEnd + limits.windowBytes)) with
    | .error why => .error why
    | .ok slot =>
      .ok { pass with report := { pass.report with
        slack := pass.report.fileBytes - sealedEnd
        nonzeroSlack := decide (slot ≠ .zero) } }

/-- The body of the scan's loop over the chain: one file. -/
def scanFile (link : Link) (head : Bool) (cutoff : Option Cursor) :
    Except Errc (Pass Prepare) :=
  let pass : Pass Prepare := link.fresh cutoff
  let begin_ := pass.report.begin_
  let end_ := link.scanEnd limits
  if end_ > link.file.length ∨ begin_ > end_ then .ok (pass.stopAt .torn none)
  else do
    let pass ←
      if head && !limits.bounds link then do
        let content ← scanWalHeadContent codec link.identity link.file begin_ end_
        let pass ← visitPass codec limits resolve proceed link.identity link.file content.end_
          (some content) (content.end_ - begin_) begin_ pass
        (pass.rewind content).prove codec limits proceed link
      else
        visitPass codec limits resolve proceed link.identity link.file end_ none (end_ - begin_)
          begin_ pass
    match link.sealedEnd with
    | some sealedEnd =>
      if limits.bounds link then return pass else pass.slack codec limits link sealedEnd
    | none => return pass

/-- `wal_scan_result`, with each file's scan as its visitors saw it. -/
structure ScanResult (Prepare : Type) where
  corrupt : Bool := false
  complete : Bool := false
  prepares : Nat := 0
  unresolved : Nat := 0
  contentEnd : Option Cursor := none
  files : List (Pass Prepare) := []

/-- The loop of `scan_local_wal` over the chain, oldest first. -/
def scanChain (cutoff : Option Cursor) :
    List Link → ScanResult Prepare → Except Errc (ScanResult Prepare)
  | [], output => .ok { output with complete := true }
  | link :: rest, output =>
    match scanFile codec limits resolve proceed link rest.isEmpty cutoff with
    | .error why => .error why
    | .ok pass =>
      let last := rest.isEmpty || limits.bounds link
      let output := { output with
        prepares := output.prepares + pass.report.prepares
        unresolved := output.unresolved + pass.report.unresolved
        files := output.files ++ [pass] }
      if pass.stopped then .ok output
      else if last = false ∧ pass.report.stop ≠ .end_ then
        .ok { output with corrupt := true, complete := true }
      else
        let output := if last then
          { output with contentEnd := some ⟨link.identity.incarnation, pass.report.contentEnd⟩ }
          else output
        if limits.bounds link then .ok { output with complete := true }
        else scanChain cutoff rest output

/-- `scan_local_wal`, of the chain its walk found. -/
def scanLocalWal (cutoff : Option Cursor) (chain : List Link) :
    Except Errc (ScanResult Prepare) :=
  scanChain codec limits resolve proceed cutoff chain {}

end
end KwaqueStorage.WalScan
