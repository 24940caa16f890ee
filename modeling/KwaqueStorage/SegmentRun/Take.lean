import KwaqueStorage.SegmentRun.Fed

/-!
# Taking a group

`take` cuts a group at the blocks the index chose. What lies before the first of them goes to the
run that is filling, which is then complete; each chosen block begins the next run. By induction
over the blocks that are left, the feed has runs of the file up to the end of the group, and the one
that is filling ends exactly there.
-/

namespace KwaqueStorage.SegmentRun

open Scan Extent

variable {codec : RunCodec} {history : History}

/-! ## What a group leaves alone -/

/-- A step of the feed's own work changes the runs that wait, and whether one fills, alone. -/
def Feed.SameBut (f f' : Feed) : Prop :=
  f' = { f with pending := f'.pending, skipping := f'.skipping }

namespace Feed

variable {f f' : Feed} {config : Config} {group : Group} {held : List Noted}
  {from_ until_ : Nat} {answer : Answer} {block : Noted}

theorem abandon_same : f.SameBut f.abandon := rfl

theorem closeFilling_same : f.SameBut f.closeFilling := by
  unfold closeFilling SameBut
  split <;> rfl

theorem beginRun_same : f.SameBut (f.beginRun block answer) := by
  unfold beginRun SameBut
  simp only
  split <;> rfl

theorem append_same (h : f.append config group held from_ until_ answer = some f') :
    f.SameBut f' ∧ f'.skipping = f.skipping := by
  unfold append at h
  split at h
  next => simp at h
  next filling _ =>
    simp only at h
    split at h
    next => simp at h
    next =>
      split at h
      next => simp at h
      next =>
        obtain ⟨building, _, rfl⟩ := Option.map_eq_some_iff.mp h
        exact ⟨rfl, rfl⟩

theorem SameBut.trans {f'' : Feed} (h : f.SameBut f') (h' : f'.SameBut f'') : f.SameBut f'' := by
  unfold SameBut at *
  rw [h', h]

theorem endRun_same {begins : Nat} :
    f.SameBut (f.endRun config group held from_ begins answer).1 := by
  unfold endRun
  split
  next => rfl
  next =>
    split
    next =>
      split
      next => rfl
      next =>
        cases ha : f.append config group held from_ begins answer with
        | none => exact abandon_same
        | some f' => exact (append_same ha).1.trans closeFilling_same
    next => exact closeFilling_same

theorem takeBlocks_pass {rest : List Noted} {answers : List Answer} (h : block.chosen = false) :
    takeBlocks config group (block :: rest) held from_ answers f
      = takeBlocks config group rest (held ++ [block]) from_ answers f := if_pos h

theorem takeBlocks_chosen {rest : List Noted} {answers : List Answer} (h : block.chosen = true)
    {begins : Nat} (hbegins : block.records.bytes.begin_ - group.begin_ = begins)
    {ended : Feed × Bool}
    (hended : f.endRun config group held from_ begins (answers.headD .granted) = ended) :
    takeBlocks config group (block :: rest) held from_ answers f
      = if ended.2 then ended
        else if answers.tail.headD .granted = .thrown then ({ ended.1 with skipping := true }, true)
        else takeBlocks config group rest [block] begins answers.tail.tail
          (ended.1.beginRun block (answers.tail.headD .granted)) := by
  subst hbegins hended
  exact if_neg (by simp [h])

theorem takeBlocks_same {blocks : List Noted} :
    ∀ {held : List Noted} {from_ : Nat} {answers : List Answer} {f : Feed},
      f.SameBut (takeBlocks config group blocks held from_ answers f).1 := by
  induction blocks with
  | nil =>
    intro held from_ answers f
    unfold takeBlocks
    simp only
    split
    next => rfl
    next =>
      split
      next => rfl
      next =>
        cases ha : f.append config group held from_ group.bytes.length (answers.headD .granted) with
        | none => exact abandon_same
        | some f' => exact (append_same ha).1
  | cons block rest ih =>
    intro held from_ answers f
    unfold takeBlocks
    simp only
    split
    next => exact ih
    next =>
      split
      next => exact endRun_same
      next =>
        split
        next => exact endRun_same.trans rfl
        next => exact (endRun_same.trans beginRun_same).trans ih

end Feed

/-! ## The cuts of a group -/

section Take

variable {objs : List (Obj codec history)} {f f' : Feed} {config : Config} {group : Group}
  {place : Nat} {held : List Noted} {from_ until_ : Nat} {answer : Answer}

/-- A file from its data start on. -/
def Whole (objs : List (Obj codec history)) : Prop :=
  Continues history.logicalOrigin history.physicalOrigin history.dataStart objs

theorem Whole.at_ (h : Whole objs) {pre more post : List (Obj codec history)}
    (hobjs : objs = pre ++ (more ++ post)) :
    Continues (logicalEnd history.logicalOrigin pre) (physicalEnd history.physicalOrigin pre)
      (history.dataStart + (flat pre).length) more := by
  unfold Whole at h
  rw [hobjs, continues_append, continues_append] at h
  exact h.2.1

/-- **Appending what lies where the run ends** keeps it a run of the file. -/
theorem append_has (hall : Whole objs) (hskip : f.skipping = false) (hfin : f.finished = false)
    (hhas : Has objs f.published f.pending place) (hfill : Filling f place)
    {pre more post : List (Obj codec history)} (hobjs : objs = pre ++ (more ++ post))
    (hplace : place = history.dataStart + (flat pre).length)
    (hslice : bytesAt group.bytes from_ (until_ - from_) = flat more)
    (hheld : ∀ b, held.map (Noted.row b) = (blocksOf more).map (Laid.row b))
    (ha : f.append config group held from_ until_ answer = some f') :
    Has objs f'.published f'.pending (place + (flat more).length)
      ∧ Filling f' (place + (flat more).length) ∧ (more ≠ [] ∨ Begun f → Begun f') := by
  obtain ⟨last, hlast, hopen, hend⟩ := hfill hskip hfin
  unfold Feed.append at ha
  simp only [hlast] at ha
  split at ha
  next => simp at ha
  next =>
    split at ha
    next => simp at ha
    next =>
      obtain ⟨building, hbuilt, rfl⟩ := Option.map_eq_some_iff.mp ha
      rw [hslice, hheld] at hbuilt
      obtain ⟨mid, pre₀, post₀, first, hobjs₀, hhead, hbase, hbegin, hfilled⟩ :=
        (hhas.held last (List.mem_of_getLast? hlast)).run
      -- the run ends where the stretch begins, so the stretch is what follows it
      obtain ⟨hpre, hpost⟩ : pre₀ ++ mid = pre ∧ post₀ = more ++ post := by
        apply cut_unique (by rw [List.append_assoc, ← hobjs₀, hobjs])
        have := hfilled.end_eq
        rw [flat_append, List.length_append]
        omega
      have hcont : Continues (logicalEnd history.logicalOrigin pre)
          (physicalEnd history.physicalOrigin pre) last.building.end_ more := by
        rw [hend, hplace]
        exact hall.at_ hobjs
      obtain ⟨hfilled', hbegin'⟩ := hfilled.append hcont hbuilt
      have hend' : building.end_ = place + (flat more).length := by
        have := hfilled.end_eq
        rw [hfilled'.end_eq, hbegin', flat_append, List.length_append]
        omega
      have hrun : OfFile objs last.base building := by
        refine ⟨mid ++ more, pre₀, post, first, ?_, ?_, hbase, hbegin'.trans hbegin, hfilled'⟩
        · rw [hobjs₀, hpost, List.append_assoc]
        · rw [List.append_assoc, ← hpost]
          exact hhead
      refine ⟨hhas.fill hlast hopen hrun hbegin' hend' (Nat.le_add_right _ _), ?_, ?_⟩
      · intro _ _
        exact ⟨_, List.getLast?_concat, hopen, hend'⟩
      · intro hbegun _ _ r hr
        obtain rfl : { last with building } = r := by simpa using hr
        show building.begin_ < building.end_
        have hle : last.building.begin_ ≤ last.building.end_ := Nat.le_add_right _ _
        rw [hbegin', hend', ← hend]
        rcases hbegun with hmore | hbegun
        · have hpos : 0 < (flat more).length := by
            obtain ⟨o, rest, rfl⟩ := List.exists_cons_of_ne_nil hmore
            have := o.bytes_pos
            rw [flat_cons, List.length_append]
            omega
          omega
        · have := hbegun hskip hfin last hlast
          omega

theorem Has.abandon (hhas : Has objs f.published f.pending place) :
    Has objs f.abandon.published f.abandon.pending place := by
  unfold Feed.abandon
  cases hlast : f.pending.getLast? with
  | none => exact hhas
  | some last =>
    simp only
    split
    next => exact hhas
    next => exact hhas.dropLast

/-- After a run was given up every run that waits is complete. -/
theorem Has.abandon_closed (hhas : Has objs f.published f.pending place) :
    ∀ r ∈ f.abandon.pending, r.closed = true := by
  intro r hr
  unfold Feed.abandon at hr
  cases hlast : f.pending.getLast? with
  | none =>
    rw [List.getLast?_eq_none_iff] at hlast
    simp [hlast] at hr
  | some last =>
    simp only [hlast] at hr
    split at hr
    next hclosed =>
      rw [← List.dropLast_append_getLast? last hlast] at hr
      rcases List.mem_append.mp hr with hr | hr
      · exact hhas.closed r hr
      · obtain rfl := List.mem_singleton.mp hr
        exact hclosed
    next => exact hhas.closed r hr

theorem Has.closeFilling (hhas : Has objs f.published f.pending place) (hskip : f.skipping = false)
    (hfin : f.finished = false) (hfill : Filling f place) (hbegun : Begun f) :
    Has objs f.closeFilling.published f.closeFilling.pending place
      ∧ ∀ r ∈ f.closeFilling.pending, r.closed = true := by
  obtain ⟨last, hlast, _, _⟩ := hfill hskip hfin
  unfold Feed.closeFilling
  simp only [hlast]
  refine ⟨hhas.close hlast (hbegun hskip hfin last hlast), ?_⟩
  intro r hr
  rcases List.mem_append.mp hr with hr | hr
  · exact hhas.closed r hr
  · obtain rfl := List.mem_singleton.mp hr
    rfl

/-- The run before a chosen block ends where the block begins. -/
theorem endRun_has (hall : Whole objs) (hfin : f.finished = false)
    (hhas : Has objs f.published f.pending place) (hfill : Filling f place) (hrest : Rests f)
    {pre more post : List (Obj codec history)} (hobjs : objs = pre ++ (more ++ post))
    (hplace : place = history.dataStart + (flat pre).length) {begins : Nat}
    (hbegins : begins = from_ + (flat more).length)
    (hslice : bytesAt group.bytes from_ (begins - from_) = flat more)
    (hheld : ∀ b, held.map (Noted.row b) = (blocksOf more).map (Laid.row b))
    (hbegun : more = [] → Begun f) :
    let ended := f.endRun config group held from_ begins answer
    Has objs ended.1.published ended.1.pending (place + (flat more).length)
      ∧ (ended.2 = false → ∀ r ∈ ended.1.pending, r.closed = true) := by
  have hlater : Has objs f.published f.pending (place + (flat more).length) :=
    hhas.mono (Nat.le_add_right _ _)
  unfold Feed.endRun
  by_cases hskip : f.skipping = true
  · simp only [hskip, if_true]
    exact ⟨hlater, fun _ => hrest hskip⟩
  have hskip' : f.skipping = false := by simpa using hskip
  simp only [hskip', Bool.false_eq_true, if_false]
  split
  next hmore =>
    split
    next => exact ⟨hlater, by simp⟩
    next =>
      have hne : more ≠ [] := by
        rintro rfl
        simp at hbegins
        omega
      cases ha : f.append config group held from_ begins answer with
      | none => exact ⟨hlater.abandon, fun _ => hlater.abandon_closed⟩
      | some f' =>
        obtain ⟨hhas', hfill', hbegun'⟩ :=
          append_has hall hskip' hfin hhas hfill hobjs hplace hslice hheld ha
        obtain ⟨hsame, hsk⟩ := Feed.append_same ha
        have hfin' : f'.finished = false := by
          rw [hsame]
          exact hfin
        obtain ⟨h₁, h₂⟩ := hhas'.closeFilling (hsk.trans hskip') hfin' hfill' (hbegun' (.inl hne))
        exact ⟨h₁, fun _ => h₂⟩
  next hnone =>
    have hnil : more = [] := by
      by_contra hne
      obtain ⟨o, rest, rfl⟩ := List.exists_cons_of_ne_nil hne
      have := o.bytes_pos
      rw [flat_cons, List.length_append] at hbegins
      omega
    subst hnil
    obtain ⟨h₁, h₂⟩ := hhas.closeFilling hskip' hfin hfill (hbegun rfl)
    exact ⟨h₁, fun _ => h₂⟩

/-- The next run begins with the chosen block, or none does. -/
theorem beginRun_has (hhas : Has objs f.published f.pending place)
    (hclosed : ∀ r ∈ f.pending, r.closed = true) {laid : Laid codec history} {chosen : Bool}
    {pre post : List (Obj codec history)} (hobjs : objs = pre ++ (.block laid :: post))
    (hplace : place = history.dataStart + (flat pre).length)
    (hbegin : laid.records.bytes.begin_ = place) :
    let f' := f.beginRun (laid.noted chosen) answer
    Has objs f'.published f'.pending place ∧ Filling f' place ∧ Rests f' := by
  unfold Feed.beginRun
  simp only
  split
  next => exact ⟨hhas, fun h => by simp at h, fun _ => hclosed⟩
  next =>
    have hrun : OfFile objs laid.records.logical.begin_ ({ begin_ := place } : Run) :=
      ⟨[], pre, .block laid :: post, laid, hobjs, rfl, rfl, hplace, filled_nil place⟩
    refine ⟨?_, ?_, by simp [Rests]⟩
    · have hnew := hhas.beginRun hclosed hrun
      simpa only [Laid.noted, hbegin] using hnew
    · intro _ _
      refine ⟨_, List.getLast?_concat, rfl, ?_⟩
      simpa [Run.end_, Laid.noted] using hbegin

/-- Blocks as objects of the file, and as they were noted. -/
def blockObjs (blocks : List (Laid codec history × Bool)) : List (Obj codec history) :=
  blocks.map fun b => .block b.1

def notedOf (blocks : List (Laid codec history × Bool)) : List Noted :=
  blocks.map fun b => b.1.noted b.2

def footerObjs (footer : Option (LaidFooter codec)) : List (Obj codec history) :=
  footer.toList.map .footer

theorem blocksOf_blockObjs (blocks : List (Laid codec history × Bool)) :
    blocksOf (blockObjs blocks) = blocks.map Prod.fst := by
  induction blocks with
  | nil => rfl
  | cons b rest ih => simpa [blockObjs] using ih

theorem blocksOf_footerObjs (footer : Option (LaidFooter codec)) :
    blocksOf (footerObjs footer : List (Obj codec history)) = [] := by
  cases footer <;> rfl

/-- The row the feed makes of a block is the one a check of its bytes makes. -/
theorem rows_eq (blocks : List (Laid codec history × Bool)) (footer : Option (LaidFooter codec))
    (b : Nat) : (notedOf blocks).map (Noted.row b)
      = (blocksOf (blockObjs blocks ++ footerObjs footer)).map (Laid.row b) := by
  rw [blocksOf_append, blocksOf_blockObjs, blocksOf_footerObjs, List.append_nil, notedOf,
    List.map_map, List.map_map]
  apply List.map_congr_left
  intro laid _
  simp only [Function.comp_apply, Noted.row, Laid.noted, Laid.row, laid.1.span]
  rw [Nat.add_sub_cancel_left]

theorem bytesAt_mid {a b c : List UInt8} {n : Nat} (hn : n = b.length) :
    bytesAt (a ++ (b ++ c)) a.length n = b := by
  rw [bytesAt_append (by omega), hn, List.take_length]

/-- A group of the file, as the feed was handed it. -/
structure Of (objs pre post : List (Obj codec history)) (group : Group)
    (blocks : List (Laid codec history × Bool)) (footer : Option (LaidFooter codec)) : Prop where
  file : objs = pre ++ (blockObjs blocks ++ (footerObjs footer ++ post))
  begin_ : group.begin_ = history.dataStart + (flat pre).length
  bytes : group.bytes = flat (blockObjs blocks ++ footerObjs footer : List (Obj codec history))

/-- Where the feed stands after a group: at its end, or where an exception left it. -/
def TookTo (objs : List (Obj codec history)) (taken : Feed × Bool) (place : Nat) : Prop :=
  Has objs taken.1.published taken.1.pending place
    ∧ (taken.2 = false → Filling taken.1 place ∧ Rests taken.1 ∧ Begun taken.1)

/-- **Taking a group.** The induction is on the blocks that are left; `ps` went to runs before, and
    `hs` are to go to the run that is filling. -/
theorem takeBlocks_has (hall : Whole objs) {pre post : List (Obj codec history)}
    {footer : Option (LaidFooter codec)} {bs : List (Laid codec history × Bool)} :
    ∀ {ps hs : List (Laid codec history × Bool)} {answers : List Answer} {f : Feed},
      Of objs pre post group (ps ++ hs ++ bs) footer → f.finished = false →
      Has objs f.published f.pending (group.begin_ + (flat (blockObjs ps)).length) →
      Filling f (group.begin_ + (flat (blockObjs ps)).length) → Rests f →
      (hs = [] → Begun f) →
      TookTo objs (Feed.takeBlocks config group (notedOf bs) (notedOf hs)
        (flat (blockObjs ps)).length answers f) (group.begin_ + group.bytes.length) := by
  induction bs with
  | nil =>
    intro ps hs answers f hof hfin hhas hfill hrest hbegun
    have hsplit : blockObjs (ps ++ hs ++ []) = blockObjs ps ++ blockObjs hs := by
      simp [blockObjs]
    have hbytes := hof.bytes
    rw [hsplit, List.append_assoc, flat_append] at hbytes
    have hlen : group.begin_ + group.bytes.length = group.begin_ + (flat (blockObjs ps)).length
        + (flat (blockObjs hs ++ footerObjs footer : List (Obj codec history))).length := by
      rw [hbytes, List.length_append, Nat.add_assoc]
    have hlater : Has objs f.published f.pending (group.begin_ + group.bytes.length) :=
      hhas.mono (by omega)
    simp only [notedOf, List.map_nil, Feed.takeBlocks]
    by_cases hskip : f.skipping = true
    · simp only [hskip, if_true]
      refine ⟨hlater, fun _ => ⟨?_, hrest, ?_⟩⟩
      · intro h
        exact absurd (hskip.symm.trans h) (by simp)
      · intro h
        exact absurd (hskip.symm.trans h) (by simp)
    have hskip' : f.skipping = false := by simpa using hskip
    simp only [hskip', Bool.false_eq_true, if_false]
    split
    next => exact ⟨hlater, by simp⟩
    next =>
      have hobjs : objs = (pre ++ blockObjs ps) ++ ((blockObjs hs ++ footerObjs footer) ++ post) := by
        rw [hof.file, hsplit]
        simp
      cases ha : f.append config group (hs.map fun b => b.1.noted b.2)
          (flat (blockObjs ps)).length group.bytes.length (answers.headD .granted) with
      | none =>
        refine ⟨hlater.abandon, fun _ => ⟨?_, fun _ => hlater.abandon_closed, ?_⟩⟩
        · intro h
          exact absurd h (by simp [Feed.abandon])
        · intro h
          exact absurd h (by simp [Feed.abandon])
      | some f' =>
        obtain ⟨hhas', hfill', hbegun'⟩ := append_has hall hskip' hfin hhas hfill hobjs
          (by rw [hof.begin_, flat_append, List.length_append, Nat.add_assoc])
          (by
            rw [hbytes]
            have hmid := bytesAt_mid (a := flat (blockObjs ps)) (c := [])
              (b := flat (blockObjs hs ++ footerObjs footer : List (Obj codec history))) rfl
            rw [List.append_nil] at hmid
            rw [List.length_append, Nat.add_sub_cancel_left]
            exact hmid)
          (fun b => rows_eq hs footer b) ha
        rw [← hlen] at hhas' hfill'
        refine ⟨hhas', fun _ => ⟨hfill', ?_, hbegun' ?_⟩⟩
        · intro h
          exact absurd ((Feed.append_same ha).2.symm.trans h) hskip
        · by_cases hnil : hs = []
          · exact .inr (hbegun hnil)
          · refine .inl ?_
            obtain ⟨b, rest, rfl⟩ := List.exists_cons_of_ne_nil hnil
            simp [blockObjs]
  | cons b rest ih =>
    intro ps hs answers f hof hfin hhas hfill hrest hbegun
    have hnoted : notedOf (b :: rest) = b.1.noted b.2 :: notedOf rest := rfl
    rw [hnoted]
    cases hchosen : (b.1.noted b.2).chosen with
    | false =>
      rw [Feed.takeBlocks_pass hchosen]
      have hof' : Of objs pre post group (ps ++ (hs ++ [b]) ++ rest) footer := by
        simpa using hof
      have hrec := @ih ps (hs ++ [b]) answers f hof' hfin hhas hfill hrest (by simp)
      simpa only [notedOf, List.map_append, List.map_cons, List.map_nil] using hrec
    | true =>
      have hsplit : blockObjs (ps ++ hs ++ b :: rest)
          = blockObjs ps ++ (blockObjs hs ++ (.block b.1 :: blockObjs rest)) := by
        simp [blockObjs]
      have hobjs : objs = (pre ++ blockObjs ps) ++ (blockObjs hs
          ++ (.block b.1 :: (blockObjs rest ++ (footerObjs footer ++ post)))) := by
        rw [hof.file, hsplit]
        simp
      have hplace : group.begin_ + (flat (blockObjs ps)).length
          = history.dataStart + (flat (pre ++ blockObjs ps)).length := by
        rw [hof.begin_, flat_append, List.length_append, Nat.add_assoc]
      have hps : (flat (blockObjs (ps ++ hs))).length
          = (flat (blockObjs ps)).length + (flat (blockObjs hs)).length := by
        simp [blockObjs]
      have hcut : objs = (pre ++ blockObjs ps ++ blockObjs hs)
          ++ ([.block b.1] ++ (blockObjs rest ++ (footerObjs footer ++ post))) := by
        rw [hobjs]
        simp
      have hbegin : b.1.records.bytes.begin_
          = group.begin_ + (flat (blockObjs (ps ++ hs))).length := by
        rw [(hall.at_ hcut).2.2.1, flat_append, List.length_append, hps]
        omega
      have hbegins : (b.1.noted b.2).records.bytes.begin_ - group.begin_
          = (flat (blockObjs (ps ++ hs))).length := by
        show b.1.records.bytes.begin_ - group.begin_ = _
        omega
      have hslice : bytesAt group.bytes (flat (blockObjs ps)).length
          ((flat (blockObjs (ps ++ hs))).length - (flat (blockObjs ps)).length)
          = flat (blockObjs hs) := by
        rw [hof.bytes, hsplit, hps, Nat.add_sub_cancel_left, List.append_assoc, flat_append,
          List.append_assoc, flat_append]
        exact bytesAt_mid rfl
      have hrows : ∀ n, (notedOf hs).map (Noted.row n)
          = (blocksOf (blockObjs hs)).map (Laid.row n) := by
        intro n
        have := rows_eq hs none n
        simpa [footerObjs] using this
      have hwithin : (flat (blockObjs (ps ++ hs))).length ≤ group.bytes.length := by
        rw [hof.bytes, hsplit, hps]
        simp only [flat_append, List.length_append]
        omega
      obtain ⟨ended, heq⟩ : ∃ ended, f.endRun config group (notedOf hs)
          (flat (blockObjs ps)).length (flat (blockObjs (ps ++ hs))).length
          (answers.headD .granted) = ended := ⟨_, rfl⟩
      have hnone : blockObjs hs = [] → Begun f := by
        intro hnil
        apply hbegun
        simpa [blockObjs] using hnil
      obtain ⟨hended, hclosed⟩ := @endRun_has codec history objs f config group
        (group.begin_ + (flat (blockObjs ps)).length) (notedOf hs) (flat (blockObjs ps)).length
        (answers.headD .granted) hall hfin hhas hfill hrest _ _ _ hobjs hplace
        (flat (blockObjs (ps ++ hs))).length hps hslice hrows hnone
      have hsame := @Feed.endRun_same f config group (notedOf hs) (flat (blockObjs ps)).length
        (answers.headD .granted) (flat (blockObjs (ps ++ hs))).length
      rw [heq] at hended hclosed hsame
      rw [Nat.add_assoc, ← hps] at hended
      rw [Feed.takeBlocks_chosen hchosen hbegins heq]
      split
      next hthrown =>
        refine ⟨hended.mono (by omega), ?_⟩
        intro hfalse
        exact absurd hthrown (by simp [hfalse])
      next hgoes =>
        split
        next => exact ⟨hended.mono (by omega), by simp⟩
        next =>
          have hat : group.begin_ + (flat (blockObjs (ps ++ hs))).length
              = history.dataStart + (flat (pre ++ blockObjs ps ++ blockObjs hs)).length := by
            rw [hps, ← Nat.add_assoc, hplace, flat_append (pre ++ blockObjs ps), List.length_append,
              Nat.add_assoc]
          obtain ⟨hhas', hfill', hrest'⟩ := @beginRun_has codec history objs ended.1
            (group.begin_ + (flat (blockObjs (ps ++ hs))).length) (answers.tail.headD .granted)
            hended (hclosed (by simpa using hgoes)) b.1 b.2 _ _ hcut hat hbegin
          have hof' : Of objs pre post group ((ps ++ hs) ++ [b] ++ rest) footer := by
            simpa using hof
          have hfin' : (ended.1.beginRun (b.1.noted b.2) (answers.tail.headD .granted)).finished
              = false := by
            rw [Feed.beginRun_same, hsame]
            exact hfin
          exact @ih (ps ++ hs) [b] answers.tail.tail _ hof' hfin' hhas' hfill' hrest' (by simp)

end Take

end KwaqueStorage.SegmentRun
