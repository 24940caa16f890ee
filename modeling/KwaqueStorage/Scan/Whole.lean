import KwaqueStorage.Lib.Tiling
import KwaqueStorage.Scan.Window

/-!
# The reader over a file in memory

What `scan_reader` is for, without windows: a cursor over a file, what lies at the cursor classified over
the whole of it. The reader that reads window by window answers as this one does. Its invariant says
that what is buffered is the file's own bytes, from the cursor or from where the reads have come to, and
that the reads in flight go on from there without a gap; a classified object is buffered to its end.

An answer differs only where something outside refused, and then it is an error: no slot and no bytes are
ever answered that the whole file would not give. What may be refused does depend on the window: an
object larger than one is admitted by the budget first, and one that is not is never asked for.
-/

namespace KwaqueStorage.Scan.Window

open Lib Layout Codec

/-! ## Classifying in memory -/

/-- What a header that is all there makes of a slot, with the whole file at hand. -/
def verifyWhole (rules : Rules) (file : List UInt8) (at_ end_ header : Nat)
    (front : Except Finding EnvelopePrefix) : Except Errc ScanSlot :=
  match verifyHeader rules at_ (bytesAt file at_ header) with
  | some why => .ok ⟨.corrupt, at_, none, some why⟩
  | none =>
    match judgeVerified at_ (end_ - at_) front with
    | .error code => .error code
    | .ok (.inl slot) => .ok slot
    | .ok (.inr found) => .ok ⟨.object, at_, some found, none⟩

/-- What lies at a position, with the whole file at hand. -/
def classifyWhole (rules : Rules) (file : List UInt8) (at_ end_ : Nat) : Except Errc ScanSlot :=
  let remaining := end_ - at_
  if remaining = 0 then .ok ⟨.end_, at_, none, none⟩
  else if remaining < Scan.envelopePrefixBytes then .ok ⟨.torn, at_, none, none⟩
  else
    match judgeFront rules at_ (bytesAt file at_ Scan.envelopePrefixBytes) with
    | .inl slot => .ok slot
    | .inr (header, front) =>
      if header > remaining then .ok ⟨.torn, at_, none, none⟩
      else verifyWhole rules file at_ end_ header front

/-- A reader of a file in memory. -/
structure Whole where
  cursor : Nat
  end_ : Nat
  current : Option ScanSlot := none
  closed : Bool := false
  deriving DecidableEq

namespace Whole

/-- The object it stands at, once it was classified. -/
def standing (m : Whole) : Option EnvelopePrefix :=
  if m.closed then none
  else m.current.bind fun slot => if slot.kind = .object then slot.found else none

/-- One call. A slot stays what it was found to be until the cursor moves. -/
def call (rules : Rules) (file : List UInt8) (m : Whole) : Call → Answer × Whole
  | .next =>
    if m.closed then (.failed .closed, m)
    else
      match m.current with
      | some slot => (.slot slot, m)
      | none =>
        match classifyWhole rules file m.cursor m.end_ with
        | .error code => (.failed code, m)
        | .ok slot => (.slot slot, { m with current := some slot })
  | .object =>
    match m.standing with
    | none => (.failed .invalidArgument, m)
    | some found => (.bytes (bytesAt file m.cursor (encodedBytes found)), m)
  | .advance =>
    match m.standing with
    | none => (.failed .invalidArgument, m)
    | some found => (.done, { m with cursor := m.cursor + encodedBytes found, current := none })
  | .skipTo at_ =>
    if m.closed ∨ at_ < m.cursor ∨ m.end_ < at_ then (.failed .invalidArgument, m)
    else (.done, { m with cursor := at_, current := none })
  | .close => (.done, { m with closed := true, current := none })

/-- The answers to a sequence of calls. -/
def calls (rules : Rules) (file : List UInt8) : Whole → List Call → List Answer
  | _, [] => []
  | m, call :: rest =>
    let out := m.call rules file call
    out.1 :: out.2.calls rules file rest

/-- **Answers that the whole file gives**, but for calls that failed. A failed call leaves the cursor, but
    for a skip, which moves it all the same. -/
def Explains (rules : Rules) (file : List UInt8) : Whole → List (Call × Answer) → Prop
  | _, [] => True
  | m, (call, answer) :: rest =>
    let out := m.call rules file call
    (answer = out.1 ∧ out.2.Explains rules file rest)
      ∨ ((∃ code, answer = .failed code)
        ∧ ((∃ at_, call = .skipTo at_) ∧ out.2.Explains rules file rest
          ∨ (∀ at_, call ≠ .skipTo at_) ∧ m.Explains rules file rest))

end Whole

/-! ## What is buffered -/

/-- The range of bytes a read asks for. -/
def PendingRead.piece (p : PendingRead) : Nat × Nat := (p.at_, p.at_ + p.length)

/-- **What a live reader holds**: the file's bytes from the cursor on, as far as the reads have come, and
    reads in flight that go on from there without a gap. -/
structure Held (file : List UInt8) (r : Reader) : Prop where
  begins : r.bufferedBegin = min r.cursor r.bufferedEnd
  bytes : r.buffered = bytesAt file r.bufferedBegin (r.bufferedEnd - r.bufferedBegin)
  full : r.buffered.length = r.bufferedEnd - r.bufferedBegin
  queue : Tiling.Joined r.bufferedEnd r.nextRead (r.reads.map PendingRead.piece)
  some_ : ∀ p ∈ r.reads, 0 < p.length
  inside : r.nextRead ≤ r.end_

theorem Held.setCurrent {file : List UInt8} {r : Reader} {current : Option ScanSlot} (h : Held file r) :
    Held file { r with current } := ⟨h.begins, h.bytes, h.full, h.queue, h.some_, h.inside⟩

/-- What filling leaves as it is. -/
structure Same (r r' : Reader) : Prop where
  limits : r'.limits = r.limits
  cursor : r'.cursor = r.cursor
  end_ : r'.end_ = r.end_
  current : r'.current = r.current
  closed : r'.closed = r.closed

theorem Same.rfl {r : Reader} : Same r r := ⟨Eq.refl _, Eq.refl _, Eq.refl _, Eq.refl _, Eq.refl _⟩

theorem Same.trans {r r' r'' : Reader} (h : Same r r') (h' : Same r' r'') : Same r r'' :=
  ⟨h'.limits.trans h.limits, h'.cursor.trans h.cursor, h'.end_.trans h.end_, h'.current.trans h.current,
    h'.closed.trans h.closed⟩

section Fill

variable {file : List UInt8} {env : Env} {r : Reader}

theorem bytesAt_append_bytesAt {from_ mid to_ : Nat} (hfrom : from_ ≤ mid) (hto : mid ≤ to_) :
    bytesAt file from_ (mid - from_) ++ bytesAt file mid (to_ - mid) = bytesAt file from_ (to_ - from_) := by
  have hmid : file.drop mid = (file.drop from_).drop (mid - from_) := by
    rw [List.drop_drop, Nat.add_sub_cancel' hfrom]
  unfold bytesAt
  rw [hmid, ← List.take_add]
  congr 1
  omega

theorem drop_bytesAt {from_ mid to_ : Nat} (hfrom : from_ ≤ mid) :
    (bytesAt file from_ (to_ - from_)).drop (mid - from_) = bytesAt file mid (to_ - mid) := by
  unfold bytesAt
  rw [List.drop_take, List.drop_drop, Nat.add_sub_cancel' hfrom]
  congr 1
  omega

/-- A window more is a read that goes on where the last one ends. -/
theorem Held.request (h : Held file r) (hmore : r.nextRead < r.end_) :
    Held file r.request ∧ r.request.reads ≠ [] := by
  have hmod := Nat.mod_lt r.nextRead r.limits.window_pos
  have hpos : 0 < min (r.limits.windowBytes - r.nextRead % r.limits.windowBytes) (r.end_ - r.nextRead) := by
    omega
  refine ⟨⟨h.begins, h.bytes, h.full, ?_, ?_, ?_⟩, by simp [Reader.request]⟩
  · show Tiling.Joined r.bufferedEnd _ ((r.reads ++ [_]).map PendingRead.piece)
    rw [List.map_append]
    exact Tiling.joined_append.mpr ⟨r.nextRead, h.queue, Eq.refl _, Eq.refl _⟩
  · intro p hmem
    rcases List.mem_append.mp hmem with hmem | hmem
    · exact h.some_ p hmem
    · rw [List.mem_singleton.mp hmem]
      exact hpos
  · show r.nextRead + min _ (r.end_ - r.nextRead) ≤ r.end_
    omega

/-- What asking for windows leaves as it is. -/
structure Asked (r r' : Reader) : Prop extends Same r r' where
  bufferedEnd : r'.bufferedEnd = r.bufferedEnd
  broken : r'.broken = r.broken

theorem Held.issueLoop {left : Nat} : ∀ {r : Reader}, Held file r →
    Held file (Reader.issueLoop left r) ∧ Asked r (Reader.issueLoop left r)
      ∧ (r.reads ≠ [] → (Reader.issueLoop left r).reads ≠ []) := by
  induction left with
  | zero => exact fun h => ⟨h, ⟨Same.rfl, rfl, rfl⟩, id⟩
  | succ left ih =>
    intro r h
    unfold Reader.issueLoop
    split
    next hmore =>
      obtain ⟨hheld, hsome⟩ := h.request hmore.2
      obtain ⟨hheld', hasked, hreads⟩ := ih hheld
      have hfirst : Same r r.request := ⟨rfl, rfl, rfl, rfl, rfl⟩
      exact ⟨hheld', ⟨hfirst.trans hasked.toSame, hasked.bufferedEnd, hasked.broken⟩, fun _ => hreads hsome⟩
    next => exact ⟨h, ⟨Same.rfl, rfl, rfl⟩, id⟩

/-- **As long as the reads have not come to the end, one is in flight.** -/
theorem Held.issue (h : Held file r) :
    Held file r.issue ∧ Asked r r.issue ∧ (r.bufferedEnd < r.end_ → r.issue.reads ≠ []) := by
  obtain ⟨hheld, hasked, hreads⟩ := @Held.issueLoop file (r.limits.readAhead + 1) r h
  refine ⟨hheld, hasked, fun hmore => ?_⟩
  by_cases hnone : r.reads = []
  · have hnext : r.nextRead = r.bufferedEnd := by
      have hqueue := h.queue
      rw [hnone] at hqueue
      exact hqueue.symm
    have hturn : r.reads.length < r.limits.readAhead + 1 ∧ r.nextRead < r.end_ := by
      rw [hnone, hnext]
      exact ⟨Nat.succ_pos _, hmore⟩
    obtain ⟨hheld', hsome⟩ := h.request hturn.2
    unfold Reader.issue Reader.issueLoop
    rw [if_pos hturn]
    exact hheld'.issueLoop.2.2 hsome
  · exact hreads hnone

/-- **The bytes before the cursor are forgotten**, whether the window that came reaches it or not. -/
theorem forget_held (hbegin : r.bufferedBegin ≤ r.cursor) (hle : r.bufferedBegin ≤ r.bufferedEnd)
    (hbytes : r.buffered = bytesAt file r.bufferedBegin (r.bufferedEnd - r.bufferedBegin))
    (hfull : r.buffered.length = r.bufferedEnd - r.bufferedBegin)
    (hqueue : Tiling.Joined r.bufferedEnd r.nextRead (r.reads.map PendingRead.piece))
    (hsome : ∀ p ∈ r.reads, 0 < p.length) (hinside : r.nextRead ≤ r.end_) :
    ∃ r', r.forget = .ok r' ∧ Held file r' ∧ Same r r' ∧ r'.bufferedEnd = r.bufferedEnd
      ∧ r'.broken = r.broken := by
  unfold Reader.forget
  split
  next hbefore =>
    unfold Reader.trimTo
    rw [if_neg (by omega)]
    refine ⟨_, rfl, ⟨rfl, ?_, ?_, hqueue, hsome, hinside⟩, ⟨rfl, rfl, rfl, rfl, rfl⟩, rfl, rfl⟩
    · show r.buffered.drop _ = bytesAt file (min r.cursor r.bufferedEnd) _
      rw [hbytes]
      exact drop_bytesAt (by omega)
    · show (r.buffered.drop _).length = _
      rw [List.length_drop, hfull]
      dsimp only
      omega
  next hafter => exact ⟨r, rfl, ⟨by omega, hbytes, hfull, hqueue, hsome, hinside⟩, Same.rfl, rfl, rfl⟩

/-- What a turn of filling may come to. -/
structure Turned (file : List UInt8) (env : Env) (r : Reader) (out : Except Errc Unit × Reader) : Prop where
  same : Same r out.2
  held : out.2.broken = false → Held file out.2
  /-- A turn that went well brought a byte at least. -/
  more : out.1 = .ok () → out.2.broken = false ∧ r.bufferedEnd < out.2.bufferedEnd
  fine : env = .fine → r.end_ ≤ file.length → out.1 = .ok ()

/-- A turn that failed while the reader was broken says nothing more. -/
theorem Turned.failed {r' : Reader} {code : Errc} (hsame : Same r r') (hbroken : r'.broken = true)
    (hfine : env = .fine → r.end_ ≤ file.length → False) : Turned file env r (.error code, r') where
  same := hsame
  held := fun h => absurd (hbroken.symm.trans h) (by decide)
  more := nofun
  fine := fun henv hlen => (hfine henv hlen).elim

/-- The window that came is part of what is held, once it could be joined. -/
theorem Held.join {pending : PendingRead} {rest : List PendingRead} {joined : Reader} {data : List UInt8}
    (h : Held file r) (hreads : r.reads = pending :: rest)
    (hdata : data = bytesAt file pending.at_ pending.length) (hlen : data.length = pending.length)
    (hjoin : Reader.join { r with reads := rest, broken := true } env pending data = some joined) :
    ∃ r', Reader.forget { joined with
        broken := false, bufferedEnd := pending.at_ + pending.length } = .ok r'
      ∧ Held file r' ∧ Same r r' ∧ r'.bufferedEnd = pending.at_ + pending.length ∧ r'.broken = false := by
  have hqueue := h.queue
  rw [hreads] at hqueue
  obtain ⟨hat, hrest⟩ := hqueue
  change pending.at_ = r.bufferedEnd at hat
  have hsome : ∀ p ∈ rest, 0 < p.length := by
    intro p hmem
    apply h.some_ p
    rw [hreads]
    exact List.mem_cons_of_mem _ hmem
  have hbegins := h.begins
  have hfull := h.full
  unfold Reader.join at hjoin
  dsimp only at hjoin
  split at hjoin
  next hempty =>
    -- nothing was buffered, so the cursor has not been reached yet
    cases hjoin
    rw [hempty, List.length_nil] at hfull
    obtain ⟨r', hforget, hheld, hsame, hend, hbroken⟩ := @forget_held file
      ⟨r.limits, r.cursor, r.end_, data, pending.at_, pending.at_ + pending.length, r.nextRead, rest,
        r.current, r.closed, false⟩ (by dsimp only; omega) (by dsimp only; omega)
      (by dsimp only; rw [Nat.add_sub_cancel_left]; exact hdata) (by dsimp only; omega) hrest hsome h.inside
    exact ⟨r', hforget, hheld, ⟨hsame.limits, hsame.cursor, hsame.end_, hsame.current, hsame.closed⟩, hend,
      hbroken⟩
  next =>
    obtain ⟨_, ⟨⟩⟩ := Option.ite_none_left_eq_some.mp hjoin
    have hlast := @bytesAt_append_bytesAt file r.bufferedBegin r.bufferedEnd
      (pending.at_ + pending.length) (by omega) (by omega)
    have hwidth : pending.at_ + pending.length - r.bufferedEnd = pending.length := by omega
    rw [hwidth, ← hat, ← hdata, hat, ← h.bytes] at hlast
    obtain ⟨r', hforget, hheld, hsame, hend, hbroken⟩ := @forget_held file
      ⟨r.limits, r.cursor, r.end_, r.buffered ++ data, r.bufferedBegin, pending.at_ + pending.length,
        r.nextRead, rest, r.current, r.closed, false⟩ (by dsimp only; omega) (by dsimp only; omega)
      (by dsimp only; rw [hat]; exact hlast) (by dsimp only; rw [List.length_append, hfull, hlen]; omega)
      hrest hsome h.inside
    exact ⟨r', hforget, hheld, ⟨hsame.limits, hsame.cursor, hsame.end_, hsame.current, hsame.closed⟩, hend,
    hbroken⟩

/-- **Bytes that arrive** are held from then on, or the reader is broken. -/
theorem Held.arrive {pending : PendingRead} {rest : List PendingRead} {width : Nat} (h : Held file r)
    (hreads : r.reads = pending :: rest) (hwidth : width ≤ pending.length)
    (hpos : 0 < pending.length) (hinside : pending.at_ + pending.length ≤ r.end_)
    (hfine : env = .fine → width = pending.length) :
    Turned file env r (Reader.arrive env pending (bytesAt file pending.at_ width)
      { r with reads := rest, broken := true }) := by
  have hbroken : Same r { r with reads := rest, broken := true } := ⟨rfl, rfl, rfl, rfl, rfl⟩
  unfold Reader.arrive
  by_cases hshort : (bytesAt file pending.at_ width).length = pending.length
  · rw [if_neg (not_not.mpr hshort)]
    have hle : (bytesAt file pending.at_ width).length ≤ width := List.length_take_le _ _
    obtain rfl : width = pending.length := by omega
    cases hjoin : Reader.join { r with reads := rest, broken := true } env pending
        (bytesAt file pending.at_ pending.length) with
    | none =>
      refine Turned.failed ⟨rfl, rfl, rfl, rfl, rfl⟩ rfl ?_
      rintro rfl _
      unfold Reader.join at hjoin
      split at hjoin
      next => cases hjoin
      next =>
        rw [if_neg (by simp [Env.fine])] at hjoin
        cases hjoin
    | some joined =>
      obtain ⟨r', hforget, hheld, hsame, hend, hlive⟩ := h.join hreads rfl hshort hjoin
      obtain ⟨hissued, hasked, _⟩ := hheld.issue
      have hat : pending.at_ = r.bufferedEnd := by
        have hqueue := h.queue
        rw [hreads] at hqueue
        exact hqueue.1
      have hmore : r'.issue.broken = false ∧ r.bufferedEnd < r'.issue.bufferedEnd := by
        rw [hasked.broken, hasked.bufferedEnd, hend]
        exact ⟨hlive, by omega⟩
      dsimp only
      rw [hforget]
      dsimp only
      cases hpoll : env.poll r'.issue.bufferedEnd with
      | none => exact ⟨hsame.trans hasked.toSame, fun _ => hissued, fun _ => hmore, fun _ _ => rfl⟩
      | some code =>
        refine ⟨hsame.trans hasked.toSame, fun _ => hissued, fun h => (nomatch h), ?_⟩
        rintro rfl _
        cases hpoll
  · rw [if_pos hshort]
    refine Turned.failed hbroken rfl ?_
    intro henv hlen
    apply hshort
    rw [hfine henv]
    exact length_bytesAt (hinside.trans hlen)

theorem Turned.of_issue {out : Except Errc Unit × Reader} (hasked : Asked r r.issue)
    (h : Turned file env r.issue out) : Turned file env r out where
  same := hasked.toSame.trans h.same
  held := h.held
  more := by
    intro hok
    rw [← hasked.bufferedEnd]
    exact h.more hok
  fine := by
    rw [← hasked.end_]
    exact h.fine

/-- **One turn of filling** brings the next window, or says why not. -/
theorem Held.fillTurn (h : Held file r) (hmore : r.bufferedEnd < r.end_) :
    Turned file env r (r.fillTurn file env) := by
  obtain ⟨hissued, hasked, hreads⟩ := h.issue
  refine Turned.of_issue hasked ?_
  unfold Reader.fillTurn
  dsimp only
  cases hqueue : r.issue.reads with
  | nil => exact absurd hqueue (hreads hmore)
  | cons pending rest =>
    have hsome : ∀ p ∈ pending :: rest, 0 < p.length := by
      rw [← hqueue]
      exact hissued.some_
    have hpos := hsome pending (List.mem_cons_self ..)
    have hinside : pending.at_ + pending.length ≤ r.issue.end_ := by
      have hjoined := hissued.queue
      rw [hqueue] at hjoined
      refine (Tiling.Joined.le hjoined.2 ?_).trans hissued.inside
      intro piece hmem
      obtain ⟨p, hp, rfl⟩ := List.mem_map.mp hmem
      have hlength := hsome p (List.mem_cons_of_mem _ hp)
      show p.at_ < p.at_ + p.length
      omega
    dsimp only
    cases hread : env.read pending.at_ pending.length with
    | none =>
      exact hissued.arrive hqueue (Nat.le_refl _) hpos hinside fun _ => rfl
    | some fault =>
      have hnot : env ≠ .fine := by
        rintro rfl
        cases hread
      cases fault with
      | failed code =>
        exact Turned.failed ⟨rfl, rfl, rfl, rfl, rfl⟩ rfl fun henv _ => hnot henv
      | short length =>
        exact hissued.arrive hqueue (Nat.min_le_right _ _) hpos hinside fun henv => absurd henv hnot

/-- What filling up to a place may come to. -/
structure Filled (file : List UInt8) (env : Env) (through : Nat) (r : Reader)
    (out : Except Errc Unit × Reader) : Prop where
  same : Same r out.2
  held : out.2.broken = false → Held file out.2
  reached : out.1 = .ok () → out.2.broken = false ∧ through ≤ out.2.bufferedEnd
  fine : env = .fine → r.end_ ≤ file.length → out.1 = .ok ()

theorem Held.fillLoop {through left : Nat} : ∀ {r : Reader}, Held file r → r.broken = false →
    through ≤ r.end_ → through - r.bufferedEnd ≤ left →
    Filled file env through r (Reader.fillLoop file env through left r) := by
  induction left with
  | zero =>
    intro r h hlive _ hleft
    have hdone : through ≤ r.bufferedEnd := by omega
    exact ⟨Same.rfl, fun _ => h, fun _ => ⟨hlive, hdone⟩, fun _ _ => rfl⟩
  | succ left ih =>
    intro r h hlive hthrough hleft
    unfold Reader.fillLoop
    split
    next hmore =>
      have hturn := @Held.fillTurn file env r h (by omega)
      cases hout : r.fillTurn file env with
      | mk answer r' =>
        rw [hout] at hturn
        cases answer with
        | error code => exact ⟨hturn.same, hturn.held, fun hok => (nomatch hok), hturn.fine⟩
        | ok u =>
          obtain ⟨hlive', hgrown⟩ := hturn.more rfl
          have hsame := hturn.same
          dsimp only at hlive' hgrown hsame ⊢
          have hleft' : through - r'.bufferedEnd ≤ left := by omega
          have hrest := ih (hturn.held hlive') hlive' (by rw [hsame.end_]; exact hthrough) hleft'
          refine ⟨hsame.trans hrest.same, hrest.held, hrest.reached, ?_⟩
          rw [← hsame.end_]
          exact hrest.fine
    next hdone => exact ⟨Same.rfl, fun _ => h, fun _ => ⟨hlive, not_lt.mp hdone⟩, fun _ _ => rfl⟩

/-- **Filling** brings the bytes up to a place before the end, or says why not. -/
theorem Held.fill {through : Nat} (h : Held file r) (hlive : r.broken = false) (hthrough : through ≤ r.end_) :
    Filled file env through r (r.fill file env through) :=
  h.fillLoop hlive hthrough (Nat.le_refl _)

/-- **What is shared is the file's**, wherever it was filled to. -/
theorem Held.share {length : Nat} (h : Held file r) (hfilled : r.cursor + length ≤ r.bufferedEnd) :
    r.share env r.cursor length
      = if env.unshared r.cursor length then .error .resourceExhausted
        else .ok (bytesAt file r.cursor length) := by
  have hbegin : r.bufferedBegin = r.cursor := by
    rw [h.begins]
    omega
  have hbytes : (r.buffered.drop (r.cursor - r.bufferedBegin)).take length
      = bytesAt file r.cursor length := by
    rw [h.bytes, hbegin, Nat.sub_self, List.drop_zero]
    unfold bytesAt
    rw [List.take_take, min_eq_left (by omega)]
  unfold Reader.share
  rw [if_neg (by omega), hbytes]

end Fill

/-! ## Classifying window by window -/

section Classify

variable {rules : Rules} {file : List UInt8} {env : Env} {r : Reader} {expected : Except Errc ScanSlot}

/-- **What classifying may come to**: the slot that is expected, and for an object all of it buffered; or
    an error, and the expected one where nothing refused. -/
structure Classified (file : List UInt8) (env : Env) (r : Reader) (expected : Except Errc ScanSlot)
    (out : Except Errc ScanSlot × Reader) : Prop where
  same : Same r out.2
  held : out.2.broken = false → Held file out.2
  slot : ∀ slot, out.1 = .ok slot → expected = .ok slot ∧ out.2.broken = false
    ∧ ∀ found, slot.kind = .object → slot.found = some found →
      r.cursor + encodedBytes found ≤ out.2.bufferedEnd
  fine : env = .fine → r.end_ ≤ file.length → out.1 = expected ∧ out.2.broken = false

/-- A slot that is not an object needs no more bytes. -/
theorem Classified.plain {slot : ScanSlot} (h : Held file r) (hlive : r.broken = false)
    (hkind : slot.kind ≠ .object) (hexpected : expected = .ok slot) :
    Classified file env r expected (.ok slot, r) where
  same := Same.rfl
  held := fun _ => h
  slot := by
    rintro _ ⟨⟩
    exact ⟨hexpected, hlive, fun _ hobject _ => absurd hobject hkind⟩
  fine := fun _ _ => ⟨hexpected.symm, hlive⟩

/-- A call that was refused from outside. -/
theorem Classified.refused {r' : Reader} {code : Errc} (hsame : Same r r')
    (hheld : r'.broken = false → Held file r')
    (hfine : env = .fine → r.end_ ≤ file.length → False) :
    Classified file env r expected (.error code, r') where
  same := hsame
  held := hheld
  slot := fun _ h => nomatch h
  fine := fun henv hlen => (hfine henv hlen).elim

/-- What a reader that was filled comes to, the one that was not comes to. -/
theorem Classified.of_same {r' : Reader} {out : Except Errc ScanSlot × Reader} (hsame : Same r r')
    (h : Classified file env r' expected out) : Classified file env r expected out where
  same := hsame.trans h.same
  held := h.held
  slot := by
    rw [← hsame.cursor]
    exact h.slot
  fine := by
    rw [← hsame.end_]
    exact h.fine

theorem judgeFront_kind {at_ : Nat} {raw : List UInt8} {slot : ScanSlot}
    (h : judgeFront rules at_ raw = .inl slot) : slot.kind ≠ .object := by
  unfold judgeFront at h
  split at h
  next =>
    cases h
    exact nofun
  next =>
    split at h
    next =>
      split at h
      next =>
        cases h
        exact nofun
      next => cases h
    next => cases h

theorem judgeVerified_kind {at_ remaining : Nat} {front : Except Finding EnvelopePrefix} {slot : ScanSlot}
    (h : judgeVerified at_ remaining front = .ok (.inl slot)) : slot.kind ≠ .object := by
  unfold judgeVerified at h
  split at h
  next =>
    split at h
    next => cases h
    next =>
      cases h
      exact nofun
  next =>
    split at h
    next =>
      cases h
      exact nofun
    next => cases h

/-- An object's front says that the object ends before the end. -/
theorem judgeVerified_object {at_ remaining : Nat} {front : Except Finding EnvelopePrefix}
    {found : EnvelopePrefix} (h : judgeVerified at_ remaining front = .ok (.inr found)) :
    encodedBytes found ≤ remaining := by
  unfold judgeVerified at h
  split at h
  next => split at h <;> cases h
  next =>
    split at h
    next => cases h
    next hle =>
      cases h
      exact not_lt.mp hle

theorem Held.takeObject {found : EnvelopePrefix} (h : Held file r) (hlive : r.broken = false)
    (hinside : r.cursor + encodedBytes found ≤ r.end_) :
    Classified file env r (.ok ⟨.object, r.cursor, some found, none⟩) (r.takeObject file env found) := by
  have hfilled := @Held.fill file env r _ h hlive hinside
  unfold Reader.takeObject
  dsimp only
  cases hadmitted : (if encodedBytes found > r.limits.windowBytes then env.refused (encodedBytes found)
      else none) with
  | some code =>
    refine Classified.refused Same.rfl (fun _ => h) ?_
    rintro rfl _
    split at hadmitted
    next => cases hadmitted
    next => cases hadmitted
  | none =>
    cases hout : r.fill file env (r.cursor + encodedBytes found) with
    | mk answer r' =>
      rw [hout] at hfilled
      cases answer with
      | error code =>
        exact Classified.refused hfilled.same hfilled.held fun henv hlen => nomatch hfilled.fine henv hlen
      | ok u =>
        obtain ⟨hlive', hreached⟩ := hfilled.reached rfl
        have hsame := hfilled.same
        dsimp only at hlive' hreached hsame ⊢
        rw [hsame.cursor]
        refine ⟨hsame, hfilled.held, ?_, fun _ _ => ⟨rfl, hlive'⟩⟩
        rintro _ ⟨⟩
        refine ⟨rfl, hlive', ?_⟩
        rintro _ _ ⟨⟩
        exact hreached

/-- **A header that is all there** is filled, verified and judged as the whole file's is. -/
theorem Held.takeHeader {header : Nat} {front : Except Finding EnvelopePrefix} (h : Held file r)
    (hlive : r.broken = false) (hinside : r.cursor + header ≤ r.end_) :
    Classified file env r (verifyWhole rules file r.cursor r.end_ header front)
      (r.takeHeader rules file env header front) := by
  have hfilled := @Held.fill file env r _ h hlive hinside
  unfold Reader.takeHeader
  cases hout : r.fill file env (r.cursor + header) with
  | mk answer r' =>
    rw [hout] at hfilled
    cases answer with
    | error code =>
      exact Classified.refused hfilled.same hfilled.held fun henv hlen => nomatch hfilled.fine henv hlen
    | ok u =>
      obtain ⟨hlive', hreached⟩ := hfilled.reached rfl
      have hheld' := hfilled.held hlive'
      have hsame := hfilled.same
      dsimp only at hlive' hreached hheld' hsame ⊢
      refine Classified.of_same hsame ?_
      rw [← hsame.cursor] at hreached hinside ⊢
      rw [← hsame.end_] at hinside ⊢
      rw [hheld'.share hreached]
      cases hshared : env.unshared r'.cursor header with
      | true =>
        refine Classified.refused Same.rfl (fun _ => hheld') ?_
        rintro rfl _
        cases hshared
      | false =>
        rw [if_neg (by decide)]
        dsimp only
        cases hunverified : env.unverified r'.cursor with
        | some code =>
          refine Classified.refused Same.rfl (fun _ => hheld') ?_
          rintro rfl _
          cases hunverified
        | none =>
          unfold verifyWhole
          dsimp only
          cases hverified : verifyHeader rules r'.cursor (bytesAt file r'.cursor header) with
          | some why => exact Classified.plain hheld' hlive' nofun rfl
          | none =>
            dsimp only
            cases hjudged : judgeVerified r'.cursor (r'.end_ - r'.cursor) front with
            | error code =>
              exact ⟨Same.rfl, fun _ => hheld', fun _ hslot => (nomatch hslot), fun _ _ => ⟨rfl, hlive'⟩⟩
            | ok judged =>
              cases judged with
              | inl slot => exact Classified.plain hheld' hlive' (judgeVerified_kind hjudged) rfl
              | inr found =>
                refine hheld'.takeObject hlive' ?_
                have hle := judgeVerified_object hjudged
                omega

/-- **Classifying window by window is classifying over the whole file.** -/
theorem Held.classify (h : Held file r) (hlive : r.broken = false) (hinside : r.cursor ≤ r.end_) :
    Classified file env r (classifyWhole rules file r.cursor r.end_) (r.classify rules file env) := by
  unfold Reader.classify classifyWhole
  dsimp only
  by_cases hend : r.end_ - r.cursor = 0
  · rw [if_pos hend, if_pos hend]
    exact Classified.plain h hlive nofun rfl
  rw [if_neg hend, if_neg hend]
  by_cases htorn : r.end_ - r.cursor < Scan.envelopePrefixBytes
  · rw [if_pos htorn, if_pos htorn]
    exact Classified.plain h hlive nofun rfl
  rw [if_neg htorn, if_neg htorn]
  have hthrough : r.cursor + Scan.envelopePrefixBytes ≤ r.end_ := by omega
  have hfilled := @Held.fill file env r _ h hlive hthrough
  cases hout : r.fill file env (r.cursor + Scan.envelopePrefixBytes) with
  | mk answer r' =>
    rw [hout] at hfilled
    cases answer with
    | error code =>
      exact Classified.refused hfilled.same hfilled.held fun henv hlen => nomatch hfilled.fine henv hlen
    | ok u =>
      obtain ⟨hlive', hreached⟩ := hfilled.reached rfl
      have hheld' := hfilled.held hlive'
      have hsame := hfilled.same
      dsimp only at hlive' hreached hheld' hsame ⊢
      refine Classified.of_same hsame ?_
      rw [← hsame.cursor] at hreached hinside ⊢
      rw [← hsame.end_] at hinside ⊢
      rw [hheld'.share hreached]
      cases hshared : env.unshared r'.cursor Scan.envelopePrefixBytes with
      | true =>
        refine Classified.refused Same.rfl (fun _ => hheld') ?_
        rintro rfl _
        cases hshared
      | false =>
        rw [if_neg (by decide)]
        dsimp only
        cases hjudged : judgeFront rules r'.cursor (bytesAt file r'.cursor Scan.envelopePrefixBytes) with
        | inl slot => exact Classified.plain hheld' hlive' (judgeFront_kind hjudged) rfl
        | inr judged =>
          obtain ⟨header, front⟩ := judged
          dsimp only
          by_cases hlong : header > r'.end_ - r'.cursor
          · rw [if_pos hlong, if_pos hlong]
            exact Classified.plain hheld' hlive' nofun rfl
          · rw [if_neg hlong, if_neg hlong]
            exact hheld'.takeHeader hlive' (by omega)

end Classify

/-! ## Whole sequences of calls -/

section Calls

variable {digests : Digests} {policy : Limits} {file : List UInt8} {limits : ReaderLimits} {m : Whole}
  {r : Reader} {env : Env}

/-- **A reader that follows the one in memory**: it stands at the same place, with the same slot; while it
    is live it holds the file's bytes, and an object it stands at is buffered to its end. -/
structure Follows (file : List UInt8) (limits : ReaderLimits) (m : Whole) (r : Reader) : Prop where
  limits_eq : r.limits = limits
  cursor : r.cursor = m.cursor
  end_ : r.end_ = m.end_
  current : r.current = m.current
  closed : r.closed = m.closed
  inside : r.cursor ≤ r.end_
  held : r.closed = false → r.broken = false → Held file r
  stands : ∀ slot ∈ r.current, r.closed = false ∧ r.broken = false
    ∧ ∀ found, slot.kind = .object → slot.found = some found →
      r.cursor + encodedBytes found ≤ r.bufferedEnd

/-- The rules a reader's limits give. -/
def ReaderLimits.rules (digests : Digests) (policy : Limits) (limits : ReaderLimits) : Rules :=
  ⟨digests, policy, limits.maximumObjectBytes⟩

theorem Follows.standing (h : Follows file limits m r) : r.standing = m.standing := by
  unfold Reader.standing Whole.standing
  rw [h.closed, h.current]

/-- An object a reader stands at is live, and buffered to its end. -/
theorem Follows.standing_filled {found : EnvelopePrefix} (h : Follows file limits m r)
    (hstanding : r.standing = some found) :
    Held file r ∧ r.closed = false ∧ r.broken = false ∧ r.cursor + encodedBytes found ≤ r.bufferedEnd := by
  unfold Reader.standing at hstanding
  split at hstanding
  next => cases hstanding
  next =>
    cases hcurrent : r.current with
    | none =>
      rw [hcurrent] at hstanding
      cases hstanding
    | some slot =>
      rw [hcurrent, Option.bind_some] at hstanding
      split at hstanding
      next hkind =>
        obtain ⟨hclosed, hlive, hfilled⟩ := h.stands slot hcurrent
        exact ⟨h.held hclosed hlive, hclosed, hlive, hfilled found hkind hstanding⟩
      next => cases hstanding

/-- What one call of the two readers may come to. -/
def Agrees (file : List UInt8) (limits : ReaderLimits) (env : Env) (m : Whole) (r : Reader) (call : Call)
    (out : Answer × Reader) (whole : Answer × Whole) : Prop :=
  ((out.1 = whole.1 ∧ Follows file limits whole.2 out.2)
    ∨ ((∃ code, out.1 = .failed code)
      ∧ ((∃ at_, call = .skipTo at_) ∧ Follows file limits whole.2 out.2
        ∨ (∀ at_, call ≠ .skipTo at_) ∧ Follows file limits m out.2)))
  ∧ (env = .fine → r.end_ ≤ file.length → r.broken = false →
    out.1 = whole.1 ∧ Follows file limits whole.2 out.2 ∧ out.2.broken = false)

/-- A call that came to the same in both. -/
theorem Agrees.equal {call : Call} {out : Answer × Reader} {whole : Answer × Whole}
    (hanswer : out.1 = whole.1) (hfollows : Follows file limits whole.2 out.2)
    (hlive : r.broken = false → out.2.broken = false) :
    Agrees file limits env m r call out whole :=
  ⟨.inl ⟨hanswer, hfollows⟩, fun _ _ hbroken => ⟨hanswer, hfollows, hlive hbroken⟩⟩

/-- A call that was refused, and left the reader where it was. -/
theorem Agrees.failed {call : Call} {code : Errc} {r' : Reader} {whole : Answer × Whole}
    (hcall : ∀ at_, call ≠ .skipTo at_) (hfollows : Follows file limits m r')
    (hfine : env = .fine → r.end_ ≤ file.length → r.broken = false →
      Answer.failed code = whole.1 ∧ whole.2 = m ∧ r'.broken = false) :
    Agrees file limits env m r call (.failed code, r') whole := by
  refine ⟨.inr ⟨⟨code, rfl⟩, .inr ⟨hcall, hfollows⟩⟩, fun henv hlen hbroken => ?_⟩
  obtain ⟨hanswer, hsame, hlive⟩ := hfine henv hlen hbroken
  refine ⟨hanswer, ?_, hlive⟩
  rw [hsame]
  exact hfollows

theorem Follows.next (h : Follows file limits m r) :
    Agrees file limits env m r .next (r.call digests policy file env .next)
      (m.call (limits.rules digests policy) file .next) := by
  have hrules : r.rules digests policy = limits.rules digests policy := by
    unfold Reader.rules ReaderLimits.rules
    rw [h.limits_eq]
  simp only [Reader.call, Whole.call, Reader.next, hrules, ← h.closed, ← h.current]
  cases hclosed : r.closed with
  | true =>
    simp only [if_true]
    exact Agrees.equal rfl h id
  | false =>
    simp only [Bool.false_eq_true, if_false]
    cases hbroken : r.broken with
    | true =>
      simp only [if_true]
      exact Agrees.failed (by simp) h fun _ _ hlive => by cases hbroken.symm.trans hlive
    | false =>
      simp only [Bool.false_eq_true, if_false]
      cases hcurrent : r.current with
      | some slot => exact Agrees.equal rfl h id
      | none =>
        dsimp only
        cases hcheckpoint : env.checkpoint with
        | some code =>
          refine Agrees.failed (by simp) h ?_
          rintro rfl _ _
          cases hcheckpoint
        | none =>
          have hclassified := @Held.classify (limits.rules digests policy) file env r
            (h.held hclosed hbroken) hbroken h.inside
          rw [h.cursor, h.end_] at hclassified
          cases hout : r.classify (limits.rules digests policy) file env with
          | mk answer r' =>
            rw [hout] at hclassified
            have hsame := hclassified.same
            have hlimits := hsame.limits.trans h.limits_eq
            have hcursor := hsame.cursor.trans h.cursor
            have hend := hsame.end_.trans h.end_
            have hclosed' := hsame.closed.trans h.closed
            have hinside : r'.cursor ≤ r'.end_ := by
              have hle := h.inside
              rw [← hsame.cursor, ← hsame.end_] at hle
              exact hle
            cases answer with
            | error code =>
              refine Agrees.failed (by simp) ?_ ?_
              · refine ⟨hlimits, hcursor, hend, hsame.current.trans h.current, hclosed', hinside,
                  fun _ => hclassified.held, ?_⟩
                intro slot hslot
                rw [show r'.current = none from hsame.current.trans hcurrent] at hslot
                cases hslot
              · intro henv hlen _
                obtain ⟨hexpected, hlive⟩ := hclassified.fine henv hlen
                dsimp only at hexpected hlive
                rw [← hexpected]
                exact ⟨rfl, rfl, hlive⟩
            | ok slot =>
              obtain ⟨hexpected, hlive, hfilled⟩ := hclassified.slot slot rfl
              rw [hexpected]
              refine Agrees.equal rfl ?_ fun _ => hlive
              refine ⟨hlimits, hcursor, hend, rfl, hsame.closed.trans hclosed, hinside,
                fun _ hlive => (hclassified.held hlive).setCurrent, ?_⟩
              rintro _ ⟨⟩
              refine ⟨hsame.closed.trans hclosed, hlive, fun found hkind hfound => ?_⟩
              have hcovered := hfilled found hkind hfound
              rw [← hsame.cursor] at hcovered
              exact hcovered

theorem Follows.object (h : Follows file limits m r) :
    Agrees file limits env m r .object (r.call digests policy file env .object)
      (m.call (limits.rules digests policy) file .object) := by
  simp only [Reader.call, Whole.call, Reader.object, ← h.standing]
  cases hstanding : r.standing with
  | none => exact Agrees.equal rfl h id
  | some found =>
    obtain ⟨hheld, _, _, hfilled⟩ := h.standing_filled hstanding
    dsimp only
    rw [hheld.share hfilled]
    cases hshared : env.unshared r.cursor (encodedBytes found) with
    | true =>
      refine Agrees.failed (by simp) h ?_
      rintro rfl _ _
      cases hshared
    | false =>
      rw [if_neg (by decide), h.cursor]
      exact Agrees.equal rfl h id

/-- **Moving the cursor** within what is buffered, or past it, leaves a live reader holding the rest. -/
theorem Held.moveTo {at_ : Nat} {current : Option ScanSlot} (h : Held file r) (hforward : r.cursor ≤ at_) :
    ∃ r', Reader.trimTo { r with current, cursor := at_ } (min at_ r.bufferedEnd) = .ok r'
      ∧ Held file r' ∧ Same { r with current, cursor := at_ } r' ∧ r'.broken = r.broken := by
  have hbegins := h.begins
  have hfull := h.full
  unfold Reader.trimTo
  dsimp only
  rw [if_neg (by omega)]
  refine ⟨_, rfl, ⟨rfl, ?_, ?_, h.queue, h.some_, h.inside⟩, ⟨rfl, rfl, rfl, rfl, rfl⟩, rfl⟩
  · show r.buffered.drop _ = bytesAt file (min at_ r.bufferedEnd) _
    rw [h.bytes]
    exact drop_bytesAt (by omega)
  · show (r.buffered.drop _).length = r.bufferedEnd - min at_ r.bufferedEnd
    rw [List.length_drop, hfull]
    omega

theorem trimTo_same {through : Nat} {r' : Reader} (h : r.trimTo through = .ok r') :
    Same r r' ∧ r'.broken = r.broken := by
  unfold Reader.trimTo at h
  split at h
  next => cases h
  next =>
    cases h
    exact ⟨⟨rfl, rfl, rfl, rfl, rfl⟩, rfl⟩

theorem Follows.advance (h : Follows file limits m r) :
    Agrees file limits env m r .advance (r.call digests policy file env .advance)
      (m.call (limits.rules digests policy) file .advance) := by
  simp only [Reader.call, Whole.call, Reader.advance, ← h.standing]
  cases hstanding : r.standing with
  | none => exact Agrees.equal rfl h id
  | some found =>
    obtain ⟨hheld, hclosed, hlive, hfilled⟩ := h.standing_filled hstanding
    have hend : r.bufferedEnd ≤ r.end_ := by
      refine (Tiling.Joined.le hheld.queue ?_).trans hheld.inside
      intro piece hmem
      obtain ⟨p, hp, rfl⟩ := List.mem_map.mp hmem
      have hlength := hheld.some_ p hp
      show p.at_ < p.at_ + p.length
      omega
    obtain ⟨r', hmoved, hheld', hsame, hbroken⟩ :=
      @Held.moveTo file r (r.cursor + encodedBytes found) r.current hheld (Nat.le_add_right _ _)
    rw [min_eq_left hfilled] at hmoved
    dsimp only
    rw [hmoved]
    refine Agrees.equal rfl ?_ fun _ => hbroken.trans hlive
    refine ⟨hsame.limits.trans h.limits_eq, hsame.cursor.trans (congrArg (· + _) h.cursor),
      hsame.end_.trans h.end_, rfl, hsame.closed.trans h.closed, ?_, fun _ _ => hheld'.setCurrent,
      by simp⟩
    have hcursor : r'.cursor = r.cursor + encodedBytes found := hsame.cursor
    have hends : r'.end_ = r.end_ := hsame.end_
    show r'.cursor ≤ r'.end_
    omega

theorem Follows.skipTo {at_ : Nat} (h : Follows file limits m r) :
    Agrees file limits env m r (.skipTo at_) (r.call digests policy file env (.skipTo at_))
      (m.call (limits.rules digests policy) file (.skipTo at_)) := by
  simp only [Reader.call, Whole.call, Reader.skipTo, ← h.cursor, ← h.end_, ← h.closed]
  by_cases hrefused : r.closed = true ∨ at_ < r.cursor ∨ r.end_ < at_
  · rw [if_pos hrefused, if_pos hrefused]
    exact Agrees.equal rfl h id
  rw [if_neg hrefused, if_neg hrefused]
  obtain ⟨hclosed, hforward, hinside⟩ : r.closed = false ∧ r.cursor ≤ at_ ∧ at_ ≤ r.end_ := by
    simpa using hrefused
  by_cases hbroken : r.broken = false
  · obtain ⟨r', hmoved, hheld, hsame, hlive⟩ :=
      @Held.moveTo file r at_ none (h.held hclosed hbroken) hforward
    rw [hmoved]
    refine Agrees.equal rfl ?_ fun _ => hlive.trans hbroken
    have hcurrent : r'.current = none := hsame.current
    refine ⟨hsame.limits.trans h.limits_eq, hsame.cursor, hsame.end_, hcurrent, hsame.closed, ?_,
      fun _ _ => hheld, fun slot hslot => ?_⟩
    · show r'.cursor ≤ r'.end_
      rw [hsame.cursor, hsame.end_]
      exact hinside
    · change r'.current = some slot at hslot
      rw [hcurrent] at hslot
      cases hslot
  · -- a broken reader may have lost what it buffered: it moves, and may say that it could not trim
    have hbroken : r.broken = true := Bool.eq_true_of_not_eq_false hbroken
    have hfollows : ∀ r' : Reader, Same { r with current := none, cursor := at_ } r' → r'.broken = true →
        Follows file limits ⟨at_, r.end_, none, r.closed⟩ r' := by
      intro r' hsame hstill
      have hcurrent : r'.current = none := hsame.current
      refine ⟨hsame.limits.trans h.limits_eq, hsame.cursor, hsame.end_, hcurrent, hsame.closed, ?_, ?_, ?_⟩
      · rw [hsame.cursor, hsame.end_]
        exact hinside
      · intro _ hlive
        exact absurd (hstill.symm.trans hlive) (by decide)
      · intro slot hslot
        change r'.current = some slot at hslot
        rw [hcurrent] at hslot
        cases hslot
    cases hmoved : Reader.trimTo { r with current := none, cursor := at_ } (min at_ r.bufferedEnd) with
    | error code =>
      refine ⟨.inr ⟨⟨code, rfl⟩, .inl ⟨⟨at_, rfl⟩, hfollows _ Same.rfl hbroken⟩⟩, ?_⟩
      intro _ _ hlive
      exact absurd (hbroken.symm.trans hlive) (by decide)
    | ok r' =>
      obtain ⟨hsame, hstill⟩ := trimTo_same hmoved
      refine Agrees.equal rfl (hfollows r' hsame (hstill.trans hbroken)) fun hlive => ?_
      exact absurd (hbroken.symm.trans hlive) (by decide)

theorem Follows.close (h : Follows file limits m r) :
    Agrees file limits env m r .close (r.call digests policy file env .close)
      (m.call (limits.rules digests policy) file .close) := by
  refine Agrees.equal rfl ⟨h.limits_eq, h.cursor, h.end_, rfl, rfl, h.inside, fun hopen => ?_, ?_⟩ id
  · cases hopen
  · intro slot hslot
    cases hslot

/-- **One call**, whichever it is. -/
theorem Follows.call (h : Follows file limits m r) (call : Call) :
    Agrees file limits env m r call (r.call digests policy file env call)
      (m.call (limits.rules digests policy) file call) := by
  cases call with
  | next => exact h.next
  | object => exact h.object
  | advance => exact h.advance
  | skipTo at_ => exact h.skipTo
  | close => exact h.close

theorem Whole.call_end {rules : Rules} {call : Call} : (m.call rules file call).2.end_ = m.end_ := by
  cases call with
  | next =>
    unfold Whole.call
    dsimp only
    split
    next => rfl
    next =>
      split
      next => rfl
      next => split <;> rfl
  | object =>
    unfold Whole.call
    dsimp only
    split <;> rfl
  | advance =>
    unfold Whole.call
    dsimp only
    split <;> rfl
  | skipTo at_ =>
    unfold Whole.call
    dsimp only
    split <;> rfl
  | close => rfl

/-- **A sequence of calls**: each answer is the one the whole file gives, or the call failed. -/
theorem Follows.explains {calls : List (Call × Env)} : ∀ {m : Whole} {r : Reader},
    Follows file limits m r →
    m.Explains (limits.rules digests policy) file
      ((calls.map Prod.fst).zip (r.calls digests policy file calls)) := by
  induction calls with
  | nil => exact fun _ => trivial
  | cons head rest ih =>
    intro m r h
    obtain ⟨call, env⟩ := head
    rcases (@Follows.call digests policy file limits m r env h call).1 with
      ⟨hanswer, hfollows⟩ | ⟨hfailed, ⟨hskip, hfollows⟩ | ⟨hstay, hfollows⟩⟩
    · exact .inl ⟨hanswer, ih hfollows⟩
    · exact .inr ⟨hfailed, .inl ⟨hskip, ih hfollows⟩⟩
    · exact .inr ⟨hfailed, .inr ⟨hstay, ih hfollows⟩⟩

/-- Where nothing refuses, the answers are the whole file's. -/
theorem Follows.calls_eq {calls : List Call} : ∀ {m : Whole} {r : Reader}, Follows file limits m r →
    r.end_ ≤ file.length → r.broken = false →
    r.calls digests policy file (calls.map fun call => (call, Env.fine))
      = m.calls (limits.rules digests policy) file calls := by
  induction calls with
  | nil => exact fun _ _ _ => rfl
  | cons call rest ih =>
    intro m r h hlen hlive
    obtain ⟨hanswer, hfollows, hlive'⟩ :=
      (@Follows.call digests policy file limits m r .fine h call).2 rfl hlen hlive
    have hend : (r.call digests policy file .fine call).2.end_ ≤ file.length := by
      rw [hfollows.end_, Whole.call_end, ← h.end_]
      exact hlen
    simp only [List.map_cons, Reader.calls, Whole.calls, hanswer]
    exact congrArg _ (ih hfollows hend hlive')

/-- A reader that was just made follows one in memory from its begin. -/
theorem Follows.make {begin_ end_ : Nat} (h : Reader.make limits begin_ end_ env = .ok r) :
    Follows file limits ⟨begin_, end_, none, false⟩ r ∧ r.end_ = end_ ∧ r.broken = false := by
  unfold Reader.make at h
  simp only [bind_eq_ok, require_eq_ok] at h
  obtain ⟨_, hle, _, _, h⟩ := h
  split at h
  next => cases h
  next =>
    cases h
    have hheld : Held file ⟨limits, begin_, end_, [], begin_, begin_, begin_, [], none, false, false⟩ := by
      refine ⟨(min_self _).symm, ?_, (Nat.sub_self _).symm, rfl, fun _ hmem => (nomatch hmem), hle⟩
      rw [Nat.sub_self]
      exact (List.take_zero).symm
    exact ⟨⟨rfl, rfl, rfl, rfl, rfl, hle, fun _ _ => hheld, fun _ hslot => nomatch hslot⟩, rfl, rfl⟩

end Calls

/-- **Reading window by window shows in no slot**: whatever is called on a reader, in whatever order and
    whatever outside refuses, each answer is the one a reader of the whole file in memory gives, or the
    call failed. Where nothing refuses, the answers are all the same, and so they are those of every other
    reader of that part of the file under the same bound on objects, whatever its windows and its
    read-ahead. -/
theorem scan_reader_whole (digests : Digests) (policy : Limits) (file : List UInt8)
    (limits : ReaderLimits) (begin_ end_ : Nat) (env : Env) (r : Reader)
    (hmake : Reader.make limits begin_ end_ env = .ok r) :
    (∀ calls : List (Call × Env), Whole.Explains (limits.rules digests policy) file ⟨begin_, end_, none, false⟩
      ((calls.map Prod.fst).zip (r.calls digests policy file calls)))
    ∧ (end_ ≤ file.length → ∀ calls : List Call,
      r.calls digests policy file (calls.map fun call => (call, Env.fine))
        = Whole.calls (limits.rules digests policy) file ⟨begin_, end_, none, false⟩ calls)
    ∧ (end_ ≤ file.length → ∀ (other : ReaderLimits) (env' : Env) (r' : Reader),
      other.maximumObjectBytes = limits.maximumObjectBytes →
      Reader.make other begin_ end_ env' = .ok r' → ∀ calls : List Call,
      r'.calls digests policy file (calls.map fun call => (call, Env.fine))
        = r.calls digests policy file (calls.map fun call => (call, Env.fine))) := by
  obtain ⟨hfollows, hend, hlive⟩ := @Follows.make file limits r env begin_ end_ hmake
  refine ⟨fun calls => hfollows.explains, fun hlen calls => ?_, ?_⟩
  · exact hfollows.calls_eq (by rw [hend]; exact hlen) hlive
  · intro hlen other env' r' hbound hmake' calls
    obtain ⟨hfollows', hend', hlive'⟩ := @Follows.make file other r' env' begin_ end_ hmake'
    have hrules : other.rules digests policy = limits.rules digests policy := by
      unfold ReaderLimits.rules
      rw [hbound]
    rw [hfollows'.calls_eq (by rw [hend']; exact hlen) hlive',
      hfollows.calls_eq (by rw [hend]; exact hlen) hlive, hrules]

/-- A file of one footer without a body. -/
def footerFile : List UInt8 :=
  [75, 81, 66, 70, 6, 0, 1, 0, 1, 0, 32, 0, 0, 0, 0, 0, 0, 0, 0, 0, 0, 0, 0, 0, 0, 0, 0, 0, 18, 210, 143, 102]

/-- Windows of so many bytes, with one read ahead. -/
def narrow (window : Nat) (hpos : 0 < window := by decide)
    (hmost : window ≤ maximumFileIoBytes := by decide) : ReaderLimits :=
  ⟨window, 1, maximumFileIoBytes, 65536, hpos, hmost, by decide, by decide⟩

/-- The front of that footer. -/
def footerFront : EnvelopePrefix := ⟨6, 1, 1, 32, 0, 0, 0, 1720701458⟩

/-- An object that lies in seven windows is read as a whole one is, and the end is found behind it. -/
theorem scan_reader_whole_footer :
    ∃ r, Reader.make (narrow 5) 0 32 {} = .ok r
      ∧ r.calls castagnoliDigests {} footerFile
          ([.next, .object, .advance, .next].map fun call => (call, Env.fine))
        = [.slot ⟨.object, 0, some footerFront, none⟩, .bytes footerFile, .done, .slot ⟨.end_, 32, none, none⟩] := by
  have hlen : 32 ≤ footerFile.length := by decide +kernel
  have hmake : Reader.make (narrow 5) 0 32 {}
      = .ok ⟨narrow 5, 0, 32, [], 0, 0, 0, [], none, false, false⟩ := by decide +kernel
  refine ⟨_, hmake, ?_⟩
  rw [(scan_reader_whole castagnoliDigests {} footerFile (narrow 5) 0 32 {} _ hmake).2.1 hlen]
  decide +kernel

/-- **A window may show in an error**: where the budget has no room for an object larger than a window,
    one that fits a window is still answered. -/
theorem scan_reader_refused :
    ∃ small large, Reader.make (narrow 31) 0 32 {} = .ok small ∧ Reader.make (narrow 32) 0 32 {} = .ok large
      ∧ small.calls castagnoliDigests {} footerFile
          [(.next, { refused := fun _ => some .resourceExhausted })] = [.failed .resourceExhausted]
      ∧ large.calls castagnoliDigests {} footerFile
          [(.next, { refused := fun _ => some .resourceExhausted })]
        = [.slot ⟨.object, 0, some footerFront, none⟩] := by
  refine ⟨_, _, rfl, rfl, ?_, ?_⟩
  · decide +kernel
  · decide +kernel

end KwaqueStorage.Scan.Window
