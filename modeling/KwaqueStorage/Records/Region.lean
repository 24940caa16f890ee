import KwaqueStorage.Records.Scan

/-!
# A region is scanned as it would be decoded

`RegionSpelled` says what a region has to be: records one after the other, each within the policy and the
batch, in the order its kind wants, with so many headers in all. `Progress` is what a scanner knows on the
way there: which records it has passed, and so where its cursor stands and what it has counted. A step
keeps it, one record further, and a scanner is complete exactly when there is no record left.
-/

namespace KwaqueStorage.Records

open Extent (u64Max)
open Layout Lib

variable {env : Environment} {policy : Limits}

/-! ## What a region has to be -/

/-- The place of a record in its batch. -/
def deltaOf (content : Content) : Nat := content.fields.logicalDelta.toNat

/-- The bytes of records, one after the other. -/
def spellRegion (contents : List Content) : List UInt8 := contents.flatMap spell

/-- The headers of records. -/
def headersIn (contents : List Content) : Nat := (contents.map fun content => content.headers.length).sum

/-- Records stand in the order a kind of region wants. -/
def InOrder : RegionKind → List Content → Prop
  | .denseOriginal, contents => contents.map deltaOf = List.range contents.length
    ∧ ∀ first ∈ contents.head?, first.fields.timestampDelta = 0
  | .sparse, contents => (contents.map deltaOf).Pairwise (· < ·)

/-- A record is within the policy and the batch. -/
def Belongs (policy : Limits) (expected : RegionContext) (content : Content) : Prop :=
  Within policy content ∧ Representable expected.timestampBase content.fields.timestampDelta
    ∧ deltaOf content < expected.originalCount

/-- A region is exactly some records. -/
structure RegionSpelled (policy : Limits) (expected : RegionContext) (region : Buffer)
    (contents : List Content) : Prop where
  bytes : region.bytes = spellRegion contents
  count : contents.length = expected.retainedCount
  belongs : ∀ content ∈ contents, Belongs policy expected content
  ordered : InOrder expected.kind contents
  headers : headersIn contents = expected.headerCount

/-- What a scanner asks of a region before it looks at its bytes. -/
structure Admitted (policy : Limits) (expected : RegionContext) (region : Buffer) (origin : Nat) : Prop where
  fits : origin + region.size ≤ u64Max
  counts : validateBatchCounts policy expected.originalCount expected.retainedCount expected.headerCount
    = .ok ()
  dense : expected.kind = .denseOriginal → expected.retainedCount = expected.originalCount
  bytes : region.size ≤ policy.config.maxExpandedBatchBytes
  work : 4 * layoutBytes ≤ policy.config.maxWorkBytes ∧ 64 ≤ policy.config.maxWorkItems
  fragments : region.fragmentCount ≤ policy.config.maxBufferFragments

theorem validateBatchCounts_eq_ok {original retained headers : Nat} {u : Unit} :
    validateBatchCounts policy original retained headers = .ok u
      ↔ (original ≠ 0 ∧ retained ≠ 0 ∧ retained ≤ original)
        ∧ (original ≤ policy.config.maxOriginalRecords ∧ headers ≤ policy.config.maxBatchHeaders)
        ∧ headers ≤ retained * policy.config.maxRecordHeaders := by
  unfold validateBatchCounts
  simp only [bind_eq_ok, require_eq_ok, exists_const]

theorem spellRegion_append {first second : List Content} :
    spellRegion (first ++ second) = spellRegion first ++ spellRegion second := List.flatMap_append

theorem headersIn_append {first second : List Content} :
    headersIn (first ++ second) = headersIn first + headersIn second := by
  unfold headersIn
  rw [List.map_append, List.sum_append]

variable {content : Content}

theorem headersIn_singleton : headersIn [content] = content.headers.length := by
  unfold headersIn
  rw [List.map_singleton, List.sum_singleton]

theorem spellRegion_singleton : spellRegion [content] = spell content :=
  List.append_nil _

/-- A record takes seven bytes at least. -/
theorem seven_mul_le_spellRegion {contents : List Content} :
    7 * contents.length ≤ (spellRegion contents).length := by
  induction contents with
  | nil => exact Nat.le_refl _
  | cons content rest ih =>
    have hbody := @six_le_spellBody content
    have hpos := @unsignedSize_pos (spellBody content).length
    unfold spellRegion at ih ⊢
    rw [List.flatMap_cons, List.length_append, spell_length, List.length_cons]
    omega

theorem inOrder_nil {kind : RegionKind} : InOrder kind [] := by
  cases kind with
  | denseOriginal => exact ⟨rfl, nofun⟩
  | sparse => exact List.Pairwise.nil

/-- One record more stands in order when the records before it do and it stands behind them. -/
theorem inOrder_concat {kind : RegionKind} {done : List Content} :
    InOrder kind (done ++ [content]) ↔ InOrder kind done
      ∧ (kind = .denseOriginal →
        deltaOf content = done.length ∧ (done.length = 0 → content.fields.timestampDelta = 0))
      ∧ (kind = .sparse → ∀ other ∈ done, deltaOf other < deltaOf content) := by
  cases kind with
  | denseOriginal =>
    unfold InOrder
    dsimp only
    rw [List.map_append, List.length_append, List.length_singleton, List.range_succ, List.map_singleton]
    constructor
    · rintro ⟨hdeltas, hfirst⟩
      obtain ⟨hbefore, hlast⟩ := List.append_inj hdeltas (by rw [List.length_map, List.length_range])
      refine ⟨⟨hbefore, ?_⟩, fun _ => ⟨(List.cons.inj hlast).1, ?_⟩, nofun⟩
      · intro first hmem
        refine hfirst first ?_
        rw [List.head?_append, hmem]
        rfl
      · intro hnone
        obtain rfl := List.length_eq_zero_iff.mp hnone
        exact hfirst content rfl
    · rintro ⟨⟨hbefore, hfirst⟩, hlast, _⟩
      obtain ⟨hdelta, htimestamp⟩ := hlast rfl
      refine ⟨by rw [hbefore, hdelta], ?_⟩
      intro first hmem
      cases done with
      | nil =>
        cases hmem
        exact htimestamp rfl
      | cons other rest => exact hfirst first hmem
  | sparse =>
    unfold InOrder
    dsimp only
    rw [List.map_append, List.map_singleton, List.pairwise_append]
    constructor
    · rintro ⟨hbefore, _, hlast⟩
      refine ⟨hbefore, nofun, fun _ other hmem => ?_⟩
      exact hlast _ (List.mem_map_of_mem hmem) _ (List.mem_singleton_self _)
    · rintro ⟨hbefore, _, hlast⟩
      refine ⟨hbefore, List.pairwise_singleton _ _, ?_⟩
      intro a ha b hb
      obtain ⟨other, hmem, rfl⟩ := List.mem_map.mp ha
      obtain rfl := List.mem_singleton.mp hb
      exact hlast rfl other hmem

/-- In either order the last record has the greatest difference. -/
theorem InOrder.lt_last {kind : RegionKind} {done : List Content} (h : InOrder kind (done ++ [content]))
    : ∀ other ∈ done, deltaOf other < deltaOf content := by
  obtain ⟨hbefore, hdense, hsparse⟩ := inOrder_concat.mp h
  cases kind with
  | denseOriginal =>
    intro other hmem
    rw [(hdense rfl).1]
    have hdelta : deltaOf other ∈ done.map deltaOf := List.mem_map_of_mem hmem
    rw [hbefore.1] at hdelta
    exact List.mem_range.mp hdelta
  | sparse => exact hsparse rfl

/-- Some records at the front of others in order are. -/
theorem InOrder.of_append {kind : RegionKind} {first second : List Content}
    (h : InOrder kind (first ++ second)) : InOrder kind first := by
  induction second using List.reverseRecOn with
  | nil => rwa [List.append_nil] at h
  | append_singleton rest content ih =>
    rw [← List.append_assoc] at h
    exact ih (inOrder_concat.mp h).1

/-! ## One step -/

/-- The layout of a record at a cursor. -/
def layoutAt (p : Parser) (content : Content) : RecordLayout :=
  ⟨placeAt Mode.ranges p content, ⟨p.consumed, (spell content).length⟩⟩

theorem placeHeaders_length {α : Type} {mode : Mode α} {p : Parser}
    {headers : List (List UInt8 × Option (List UInt8))} :
    (placeHeaders mode p headers).length = headers.length := by
  induction headers generalizing p with
  | nil => rfl
  | cons header rest ih => rw [placeHeaders, List.length_cons, List.length_cons, ih]

theorem layoutAt_headers {p : Parser} :
    (layoutAt p content).shape.headers.length = content.headers.length := placeHeaders_length

/-- **The ranges of a layout name the bytes of the fields**, in the region the cursor is on. -/
theorem layoutAt_bytes {p : Parser} (h : p.Begins (spell content)) :
    (layoutAt p content).shape.map (ByteRange.bytes p.buffer.bytes) = content := by
  obtain ⟨hlead, hbody⟩ := Parser.begins_append.mp h
  refine placeAt_denotes h (@Mode.ranges_denotes _ _ (spellBody content).length _ ?_)
  unfold bodyAt
  rw [Parser.slice_bytes, Parser.advance_rest hlead.length_le, p.rest_eq, List.drop_drop]

namespace Scanner

theorem scanRecord_eq_ok {expected : DecodeContext} {input p' : Parser} {origin : Nat}
    {layout : RecordLayout} :
    scanRecord .free policy expected input origin = (.ok layout, p')
      ↔ ∃ content, Accepts Mode.ranges policy expected input origin content
        ∧ layout = layoutAt input content ∧ p' = input.advance (spell content).length := by
  unfold scanRecord
  constructor
  · intro h
    obtain ⟨hvalue, hparser⟩ := Prod.mk.inj h
    cases hresult : (decodeRecordImpl .free Mode.ranges policy expected input origin .complete).1 with
    | error e =>
      rw [hresult] at hvalue
      cases hvalue
    | ok shape =>
      obtain ⟨content, haccepts, rfl, rfl⟩ := decodeRecordImpl_eq_ok.mp (Prod.ext hresult hparser)
      refine ⟨content, haccepts, ?_, rfl⟩
      rw [hresult, hparser, Parser.advance_consumed haccepts.spelled.length_le,
        Nat.add_sub_cancel_left] at hvalue
      exact (Except.ok.inj hvalue).symm
  · rintro ⟨content, haccepts, rfl, rfl⟩
    rw [decodeRecordImpl_eq_ok.mpr ⟨content, haccepts, rfl, rfl⟩]
    dsimp only
    rw [Parser.advance_consumed haccepts.spelled.length_le, Nat.add_sub_cancel_left]
    rfl

theorem scanRecord_free {expected : DecodeContext} {input p' : Parser} {origin : Nat}
    {layout : RecordLayout} (h : scanRecord env policy expected input origin = (.ok layout, p')) :
    scanRecord .free policy expected input origin = (.ok layout, p') := by
  unfold scanRecord at h ⊢
  obtain ⟨hvalue, hparser⟩ := Prod.mk.inj h
  cases hresult : (decodeRecordImpl env Mode.ranges policy expected input origin .complete).1 with
  | error e =>
    rw [hresult] at hvalue
    cases hvalue
  | ok shape =>
    rw [decodeRecordImpl_free (Prod.ext hresult hparser)]
    rw [hresult, hparser] at hvalue
    rw [← hvalue]

variable {s s' : Scanner}

/-- The rules of the region for a record at the cursor. -/
def Follows (s : Scanner) (content : Content) : Prop :=
  s.Ordered content.fields
    ∧ (s.last → (s.parser.advance (spell content).length).rest = []
      ∧ s.headers + content.headers.length = s.expected.headerCount)
    ∧ (¬s.last → (s.parser.advance (spell content).length).rest ≠ [])

theorem checkRecord_eq_ok {behind : Parser} {layout layout' : RecordLayout} :
    s.checkRecord env behind layout = .ok layout'
      ↔ env ⟨.leave, .attributes, s.context.origin + s.parser.consumed⟩ = none
        ∧ s.Ordered layout.shape.fields
        ∧ ((s.last → behind.rest = [] ∧ s.headers + layout.shape.headers.length = s.expected.headerCount)
          ∧ (¬s.last → behind.rest ≠ [])) ∧ layout = layout' := by
  unfold checkRecord
  simp only [bind_eq_ok, pass_eq_ok, require_eq_ok, exists_const, pure_eq_ok, Parser.remaining_eq,
    List.length_eq_zero_iff, ne_eq]

theorem scanNext_eq : s.scanNext .free
    = ((scanRecord .free s.policy (s.expected.record s.headers) s.parser s.context.origin).1
        >>= s.checkRecord .free
          (scanRecord .free s.policy (s.expected.record s.headers) s.parser s.context.origin).2,
      (scanRecord .free s.policy (s.expected.record s.headers) s.parser s.context.origin).2) := rfl

/-- **A step reads the record at the cursor** and holds it to the rules of the region. -/
theorem scanNext_eq_ok {layout : RecordLayout} {p' : Parser} :
    s.scanNext .free = (.ok layout, p')
      ↔ ∃ content, Accepts Mode.ranges s.policy (s.expected.record s.headers) s.parser s.context.origin content
        ∧ s.Follows content ∧ layout = layoutAt s.parser content
        ∧ p' = s.parser.advance (spell content).length := by
  rw [scanNext_eq]
  unfold Follows
  constructor
  · intro h
    obtain ⟨hvalue, hparser⟩ := Prod.mk.inj h
    obtain ⟨scanned, hscanned, hchecked⟩ := bind_eq_ok.mp hvalue
    obtain ⟨content, haccepts, rfl, rfl⟩ := scanRecord_eq_ok.mp (Prod.ext hscanned hparser)
    obtain ⟨_, hordered, hends, rfl⟩ := checkRecord_eq_ok.mp hchecked
    rw [hparser, layoutAt_headers] at hends
    exact ⟨content, haccepts, ⟨hordered, hends⟩, rfl, rfl⟩
  · rintro ⟨content, haccepts, ⟨hordered, hends⟩, rfl, rfl⟩
    rw [scanRecord_eq_ok.mpr ⟨content, haccepts, rfl, rfl⟩]
    refine Prod.ext ?_ rfl
    refine bind_eq_ok.mpr ⟨_, rfl, checkRecord_eq_ok.mpr ⟨rfl, hordered, ?_, rfl⟩⟩
    rw [layoutAt_headers]
    exact hends

theorem scanNext_free {layout : RecordLayout} {p' : Parser} (h : s.scanNext env = (.ok layout, p')) :
    s.scanNext .free = (.ok layout, p') := by
  rw [scanNext_eq]
  unfold scanNext at h
  dsimp only at h
  split at h
  next => cases h
  next =>
    obtain ⟨hvalue, hparser⟩ := Prod.mk.inj h
    obtain ⟨scanned, hscanned, hchecked⟩ := bind_eq_ok.mp hvalue
    have hsame := scanRecord_free (Prod.ext hscanned hparser)
    obtain ⟨_, hrules⟩ := checkRecord_eq_ok.mp hchecked
    rw [hsame]
    rw [hparser] at hrules
    exact Prod.ext (bind_eq_ok.mpr ⟨_, rfl, checkRecord_eq_ok.mpr ⟨rfl, hrules⟩⟩) rfl

/-- A scanner one record further. -/
def past (s : Scanner) (content : Content) : Scanner :=
  { s with
    parser := s.parser.advance (spell content).length
    current := some (layoutAt s.parser content)
    index := s.index + 1
    headers := s.headers + content.headers.length
    previousDelta := deltaOf content
    complete := decide s.last
    terminal := false }

variable {content : Content}

theorem past_region : (s.past content).region = s.region := rfl

theorem past_policy : (s.past content).policy = s.policy := rfl

theorem past_expected : (s.past content).expected = s.expected := rfl

theorem past_context : (s.past content).context = s.context := rfl

theorem past_terminal : (s.past content).terminal = false := rfl

theorem past_index : (s.past content).index = s.index + 1 := rfl

theorem past_headers :
    (s.past content).headers = s.headers + content.headers.length := rfl

theorem past_previousDelta : (s.past content).previousDelta = deltaOf content := rfl

theorem past_complete : (s.past content).complete = decide s.last := rfl

theorem past_cursor :
    (s.past content).parser = s.parser.advance (spell content).length := rfl

theorem past_current :
    (s.past content).current = some (layoutAt s.parser content) := rfl

theorem admitNext_eq_ok {work : Limits} {u : Unit} : s.admitNext env work = .ok u
    ↔ work = s.policy ∧ env ⟨.enter, .timestampDelta, s.context.origin + s.parser.consumed⟩ = none := by
  unfold admitNext
  simp only [bind_eq_ok, pass_eq_ok, require_eq_ok, exists_const]

/-- **How a step succeeds**: there is nothing more, or it is one record further. -/
theorem next_cases {work : Limits} {more : Bool} (h : s.next env work = (.ok more, s')) :
    s.terminal = false ∧ work = s.policy
      ∧ ((s.complete = true ∧ more = false ∧ s' = { s with current := none, terminal := false })
        ∨ (s.complete = false ∧ more = true
          ∧ ∃ content, Accepts Mode.ranges s.policy (s.expected.record s.headers) s.parser s.context.origin
              content ∧ s.Follows content ∧ s' = s.past content)) := by
  unfold next at h
  split at h
  next => cases h
  next hlive =>
    dsimp only at h
    split at h
    next => cases h
    next hadmitted =>
      refine ⟨eq_false_of_ne_true hlive, (admitNext_eq_ok.mp hadmitted).1, ?_⟩
      split at h
      next hcomplete =>
        cases h
        exact .inl ⟨hcomplete, rfl, rfl⟩
      next hcomplete =>
        split at h
        next => cases h
        next layout parser hscanned =>
          cases h
          obtain ⟨content, haccepts, hfollows, rfl, rfl⟩ := scanNext_eq_ok.mp (scanNext_free hscanned)
          refine .inr ⟨eq_false_of_ne_true hcomplete, rfl, content, haccepts, hfollows, ?_⟩
          rw [layoutAt_headers]
          rfl

/-- A step that is given leave steps to the record at the cursor. -/
theorem next_past (hlive : s.terminal = false) (hcomplete : s.complete = false)
    (haccepts : Accepts Mode.ranges s.policy (s.expected.record s.headers) s.parser s.context.origin content)
    (hfollows : s.Follows content) : s.next .free s.policy = (.ok true, s.past content) := by
  unfold next
  rw [if_neg (by rw [hlive]; decide), (admitNext_eq_ok (u := ())).mpr ⟨rfl, rfl⟩]
  dsimp only
  rw [if_neg (by rw [hcomplete]; decide),
    scanNext_eq_ok.mpr ⟨content, haccepts, hfollows, rfl, rfl⟩]
  dsimp only
  rw [layoutAt_headers]
  rfl

/-- **A step that fails ends the scanner.** -/
theorem next_error {work : Limits} {e : CodecError} (h : s.next env work = (.error e, s')) :
    s'.terminal = true := by
  unfold next at h
  split at h
  next hterminal =>
    cases h
    exact hterminal
  next =>
    dsimp only at h
    split at h
    next =>
      cases h
      rfl
    next =>
      split at h
      next => cases h
      next =>
        split at h
        next =>
          cases h
          rfl
        next => cases h

theorem next_terminal {work : Limits} (h : s.terminal = true) : s.next env work
    = (.error (s.context.error .closed (s.context.origin + s.parser.consumed)), s) := by
  unfold next
  rw [if_pos h]

end Scanner

/-- Past some records and one more is past all of them. -/
theorem advance_spellRegion {region : Buffer} {before : List Content}
    (h : (Parser.start region).Begins (spellRegion (before ++ [content]))) :
    ((Parser.start region).advance (spellRegion before).length).advance (spell content).length
      = (Parser.start region).advance (spellRegion (before ++ [content])).length := by
  have hle := h.length_le
  rw [spellRegion_append, spellRegion_singleton, List.length_append] at hle ⊢
  exact Parser.advance_advance hle

/-! ## What a scanner knows -/

/-- A scanner of a region that has passed some records. -/
structure Progress (policy : Limits) (expected : RegionContext) (region : Buffer) (context : FieldContext)
    (s : Scanner) (done : List Content) : Prop where
  region_eq : s.region = region
  policy_eq : s.policy = policy
  expected_eq : s.expected = expected
  context_eq : s.context = context
  live : s.terminal = false
  begins : (Parser.start region).Begins (spellRegion done)
  parser : s.parser = (Parser.start region).advance (spellRegion done).length
  index : s.index = done.length
  headers : s.headers = headersIn done
  previous : ∀ content ∈ done, deltaOf content ≤ s.previousDelta
  latest : done ≠ [] → ∃ content ∈ done, deltaOf content = s.previousDelta
  belongs : ∀ content ∈ done, Belongs policy expected content
  ordered : InOrder expected.kind done
  bound : headersIn done ≤ expected.headerCount
  unfinished : s.complete = false → done.length < expected.retainedCount
  finished : s.complete = true → done.length = expected.retainedCount ∧ s.parser.rest = []
    ∧ headersIn done = expected.headerCount
  current : ∀ layout ∈ s.current, ∃ before content, done = before ++ [content]
    ∧ layout = layoutAt ((Parser.start region).advance (spellRegion before).length) content

section Progress

variable {expected : RegionContext} {region : Buffer} {context : FieldContext} {s s' : Scanner}
  {done : List Content} {content : Content}

/-- The record a scanner steps to stands in order behind those it has passed. -/
theorem Progress.inOrder (h : Progress policy expected region context s done)
    (hordered : s.Ordered content.fields) : InOrder expected.kind (done ++ [content]) := by
  unfold Scanner.Ordered at hordered
  rw [h.expected_eq, h.index] at hordered
  refine inOrder_concat.mpr ⟨h.ordered, hordered.1, ?_⟩
  intro hsparse other hmem
  have hsome : done.length ≠ 0 := fun hnone => by
    rw [List.length_eq_zero_iff.mp hnone] at hmem
    cases hmem
  exact (h.previous other hmem).trans_lt (hordered.2 hsparse hsome)

/-- The cursor of a scanner, behind the record it steps to. -/
theorem Progress.behind (h : Progress policy expected region context s done)
    (hspelled : s.parser.Begins (spell content)) :
    (Parser.start region).Begins (spellRegion (done ++ [content]))
      ∧ s.parser.advance (spell content).length
        = (Parser.start region).advance (spellRegion (done ++ [content])).length := by
  rw [h.parser] at hspelled ⊢
  have hall : (Parser.start region).Begins (spellRegion (done ++ [content])) := by
    rw [spellRegion_append, spellRegion_singleton]
    exact Parser.begins_append.mpr ⟨h.begins, hspelled⟩
  exact ⟨hall, advance_spellRegion hall⟩

/-- **One step further**: whatever a scanner steps to was the next record. -/
theorem Progress.past (h : Progress policy expected region context s done) (hcomplete : s.complete = false)
    (haccepts : Accepts Mode.ranges policy (expected.record (headersIn done)) s.parser context.origin content)
    (hfollows : s.Follows content) :
    Progress policy expected region context (s.past content) (done ++ [content]) := by
  obtain ⟨hordered, hlast, hmore⟩ := hfollows
  obtain ⟨hall, hbehind⟩ := h.behind haccepts.spelled
  have hinorder := h.inOrder hordered
  have hdecodable := haccepts.decodable
  have hfew : content.headers.length ≤ expected.headerCount - headersIn done :=
    (Nat.le_min.mp (Nat.le_min.mp hdecodable.headers).2).2
  have hbound := h.bound
  have hunfinished := h.unfinished hcomplete
  have hiff : s.last ↔ done.length + 1 = expected.retainedCount := by
    unfold Scanner.last
    rw [h.expected_eq, h.index]
  refine
    { region_eq := Scanner.past_region.trans h.region_eq, policy_eq := Scanner.past_policy.trans h.policy_eq,
      expected_eq := Scanner.past_expected.trans h.expected_eq,
      context_eq := Scanner.past_context.trans h.context_eq, live := Scanner.past_terminal, begins := hall,
      parser := Scanner.past_cursor.trans hbehind, index := ?_, headers := ?_, previous := ?_, latest := ?_,
      belongs := ?_, ordered := hinorder, bound := ?_, unfinished := ?_, finished := ?_, current := ?_ }
  · rw [Scanner.past_index, h.index, List.length_append, List.length_singleton]
  · rw [Scanner.past_headers, h.headers, headersIn_append, headersIn_singleton]
  · rw [Scanner.past_previousDelta]
    intro other hmem
    rcases List.mem_append.mp hmem with hmem | hmem
    · exact (hinorder.lt_last other hmem).le
    · rw [List.mem_singleton.mp hmem]
  · intro _
    exact ⟨content, List.mem_append_right _ (List.mem_singleton_self _), Scanner.past_previousDelta.symm⟩
  · intro other hmem
    rcases List.mem_append.mp hmem with hmem | hmem
    · exact h.belongs other hmem
    · obtain rfl := List.mem_singleton.mp hmem
      exact ⟨haccepts.within, hdecodable.timestamp, hdecodable.logical⟩
  · rw [headersIn_append, headersIn_singleton]
    omega
  · rw [Scanner.past_complete, decide_eq_false_iff_not, hiff, List.length_append, List.length_singleton]
    intro hnot
    omega
  · rw [Scanner.past_complete, decide_eq_true_iff, Scanner.past_cursor]
    intro his
    obtain ⟨hrest, htotal⟩ := hlast his
    rw [h.headers, h.expected_eq] at htotal
    rw [List.length_append, List.length_singleton, headersIn_append, headersIn_singleton]
    exact ⟨hiff.mp his, hrest, htotal⟩
  · rw [Scanner.past_current]
    intro layout hlayout
    cases hlayout
    exact ⟨done, content, rfl, by rw [h.parser]⟩

/-- Nothing is passed by a scanner that was just made. -/
theorem Progress.fresh (hretained : expected.retainedCount ≠ 0) :
    Progress policy expected region context ⟨region, Parser.start region, expected, policy, context, none, 0,
      0, 0, false, false⟩ [] where
  region_eq := rfl
  policy_eq := rfl
  expected_eq := rfl
  context_eq := rfl
  live := rfl
  begins := List.nil_prefix
  parser := Parser.advance_zero.symm
  index := rfl
  headers := rfl
  previous := nofun
  latest h := (h rfl).elim
  belongs := nofun
  ordered := inOrder_nil
  bound := Nat.zero_le _
  unfinished _ := Nat.pos_of_ne_zero hretained
  finished h := nomatch h
  current := nofun

/-- A step that finds nothing more forgets the layout, and nothing else. -/
theorem Progress.idle (h : Progress policy expected region context s done) :
    Progress policy expected region context { s with current := none, terminal := false } done :=
  { h with
    live := rfl
    current := nofun }

/-- **What a step does**: it passes the next record, or there is none left. -/
theorem Progress.next {work : Limits} {more : Bool} (h : Progress policy expected region context s done)
    (hnext : s.next env work = (.ok more, s')) :
    ∃ passed, Progress policy expected region context s' (done ++ passed)
      ∧ (more = true ↔ passed.length = 1) := by
  obtain ⟨_, _, ⟨_, rfl, rfl⟩ | ⟨hcomplete, rfl, content, haccepts, hfollows, rfl⟩⟩ := Scanner.next_cases hnext
  · refine ⟨[], ?_, by decide⟩
    rw [List.append_nil]
    exact h.idle
  · rw [h.policy_eq, h.expected_eq, h.headers, h.context_eq] at haccepts
    exact ⟨[content], h.past hcomplete haccepts hfollows, iff_of_true rfl rfl⟩

/-- Along any steps that succeed, a scanner has passed records in order. -/
theorem Progress.steps {work : Limits} {envs : List Environment} {layouts : List RecordLayout}
    (h : Progress policy expected region context s done)
    (hsteps : s.steps work envs = .ok (layouts, s')) :
    ∃ passed, Progress policy expected region context s' (done ++ passed) := by
  induction envs generalizing s done layouts with
  | nil =>
    cases hsteps
    exact ⟨[], by rwa [List.append_nil]⟩
  | cons env rest ih =>
    unfold Scanner.steps at hsteps
    split at hsteps
    next => cases hsteps
    next more s₁ hnext =>
      simp only [bind_eq_ok, Prod.exists, pure_eq_ok, Prod.mk.injEq] at hsteps
      obtain ⟨later, s₂, hrest, _, rfl⟩ := hsteps
      obtain ⟨first, hfirst, _⟩ := h.next hnext
      obtain ⟨second, hsecond⟩ := ih hfirst hrest
      exact ⟨first ++ second, by rwa [← List.append_assoc]⟩

/-- **Complete**, a scanner has passed all there is: the region is spelled by what it passed. -/
theorem Progress.complete (h : Progress policy expected region context s done)
    (hcomplete : s.complete = true) : RegionSpelled policy expected region done := by
  obtain ⟨hcount, hrest, hheaders⟩ := h.finished hcomplete
  refine ⟨?_, hcount, h.belongs, h.ordered, hheaders⟩
  have hwhole : (Parser.start region).rest = spellRegion done ++ [] :=
    Parser.rest_eq_append.mpr ⟨h.begins, h.parser ▸ hrest⟩
  rwa [List.append_nil] at hwhole

end Progress

/-! ## Stepping to the end -/

section Steps

variable {expected : RegionContext} {region : Buffer} {context : FieldContext} {s : Scanner}
  {done rest : List Content} {content : Content}

theorem Parser.slice_fragmentCount_le {p : Parser} {count : Nat} :
    (p.slice count).fragmentCount ≤ p.buffer.fragmentCount := by
  unfold Parser.slice Buffer.fragmentCount
  refine Fragments.cut_length_le.trans ?_
  rw [List.length_drop]
  exact Nat.sub_le _ _

theorem costHeaders_ranges {bodyOffset : Nat} {p : Parser}
    {headers : List (List UInt8 × Option (List UInt8))} :
    costHeaders (Mode.ranges bodyOffset) p headers = 0 := by
  have hnone : ∀ {p : Parser} {payload : Option (List UInt8)},
      costNullable (Mode.ranges bodyOffset) p payload = 0 := by
    intro p payload
    cases payload with
    | none => rfl
    | some octets => rfl
  induction headers generalizing p with
  | nil => rfl
  | cons header rest ih =>
    rw [costHeaders, ih, Nat.add_zero]
    unfold costHeader
    dsimp only
    rw [hnone]
    rfl

/-- Ranges are charged nothing. -/
theorem costBody_ranges {bodyOffset : Nat} {p : Parser} : costBody (Mode.ranges bodyOffset) p content = 0 := by
  unfold costBody
  dsimp only
  rw [costHeaders_ranges]
  cases content.key with
  | none =>
    cases content.value with
    | none => rfl
    | some octets => rfl
  | some octets =>
    cases content.value with
    | none => rfl
    | some octets => rfl

/-- The next record of a spelled region is accepted behind those before it. -/
theorem RegionSpelled.accepts (hadmitted : Admitted policy expected region context.origin)
    (hspelled : RegionSpelled policy expected region (done ++ content :: rest)) :
    Accepts Mode.ranges policy (expected.record (headersIn done))
      ((Parser.start region).advance (spellRegion done).length) context.origin content := by
  obtain ⟨⟨horiginal, _, _⟩, ⟨hmost, hbatch⟩, _⟩ := validateBatchCounts_eq_ok.mp hadmitted.counts
  obtain ⟨hwithin, htimestamp, hlogical⟩ :=
    hspelled.belongs content (List.mem_append_right _ (List.mem_cons_self ..))
  obtain ⟨hkey, hvalue⟩ := hwithin.payloads
  have hheaders := hspelled.headers
  rw [headersIn_append, show content :: rest = [content] ++ rest from rfl, headersIn_append,
    headersIn_singleton] at hheaders
  refine
    { fits := ?_, original := horiginal, limits := ⟨hmost, ?_, hadmitted.work.2⟩, depth := ?_, spelled := ?_,
      decodable := ⟨hwithin.attributes, htimestamp, hlogical, hkey, hvalue, ?_, hwithin.names,
        hwithin.payload⟩, total := hwithin.total, fragments := ?_, charged := ?_ }
  · rw [Parser.advance_total]
    exact hadmitted.fits
  · have hwork := hadmitted.work.1
    unfold layoutBytes at hwork
    omega
  · rw [Parser.advance_checkpoints]
    exact nofun
  · have hall : (Parser.start region).Begins (spellRegion done ++ (spell content ++ spellRegion rest)) := by
      unfold Parser.Begins
      rw [Parser.start_rest, hspelled.bytes, spellRegion_append]
      exact List.prefix_rfl
    exact (Parser.begins_append.mp (Parser.begins_append.mp hall).2).1
  · refine Nat.le_min.mpr ⟨hwithin.headers, Nat.le_min.mpr ⟨by omega, ?_⟩⟩
    change _ ≤ expected.headerCount - headersIn done
    omega
  · refine Parser.slice_fragmentCount_le.trans ?_
    rw [Parser.advance_buffer, Parser.advance_buffer]
    exact hadmitted.fragments
  · exact costBody_ranges.trans_le (Nat.zero_le _)

/-- The next record of a spelled region keeps the rules. -/
theorem Progress.follows (h : Progress policy expected region context s done)
    (hspelled : RegionSpelled policy expected region (done ++ content :: rest)) : s.Follows content := by
  have hsplit : done ++ content :: rest = (done ++ [content]) ++ rest := by rw [List.append_assoc]; rfl
  have hcount := hspelled.count
  have hheaders := hspelled.headers
  have hbytes := hspelled.bytes
  rw [hsplit, headersIn_append, headersIn_append, headersIn_singleton] at hheaders
  rw [hsplit, List.length_append, List.length_append, List.length_singleton] at hcount
  rw [hsplit, spellRegion_append] at hbytes
  obtain ⟨_, hdense, hsparse⟩ := inOrder_concat.mp (hsplit ▸ hspelled.ordered).of_append
  have hbegins : s.parser.Begins (spell content) := by
    have hall : (Parser.start region).Begins (spellRegion done ++ spell content) := by
      refine ⟨spellRegion rest, ?_⟩
      rw [Parser.start_rest, hbytes, spellRegion_append, spellRegion_singleton]
    rw [h.parser]
    exact (Parser.begins_append.mp hall).2
  have hrest : (s.parser.advance (spell content).length).rest = spellRegion rest := by
    rw [(h.behind hbegins).2]
    exact (Parser.rest_eq_append.mp ((Parser.start_rest region).trans hbytes)).2
  have hlast : s.last ↔ rest = [] := by
    unfold Scanner.last
    rw [h.expected_eq, h.index, ← hcount, ← List.length_eq_zero_iff]
    omega
  refine ⟨⟨?_, ?_⟩, ?_, ?_⟩
  · rw [h.expected_eq, h.index]
    exact hdense
  · rw [h.expected_eq, h.index]
    intro hkind hsome
    obtain ⟨other, hmem, hdelta⟩ := h.latest fun hnone => hsome (List.length_eq_zero_iff.mpr hnone)
    rw [← hdelta]
    exact hsparse hkind other hmem
  · rw [hlast, hrest, h.headers, h.expected_eq]
    rintro rfl
    exact ⟨rfl, hheaders⟩
  · rw [hlast, hrest]
    intro hsome hnone
    have hseven := @seven_mul_le_spellRegion rest
    rw [hnone] at hseven
    exact hsome (List.length_eq_zero_iff.mp (by rw [List.length_nil] at hseven; omega))

/-- **A spelled region is stepped through**, one record a step, by induction on the records left. -/
theorem Progress.through (h : Progress policy expected region context s done)
    (hadmitted : Admitted policy expected region context.origin)
    (hspelled : RegionSpelled policy expected region (done ++ rest)) :
    ∃ layouts s', s.steps policy (List.replicate rest.length .free) = .ok (layouts, s')
      ∧ Progress policy expected region context s' (done ++ rest) := by
  induction rest generalizing s done with
  | nil => exact ⟨[], s, rfl, by rwa [List.append_nil]⟩
  | cons content rest ih =>
    have hlive := h.live
    have hcount := hspelled.count
    rw [List.length_append, List.length_cons] at hcount
    have hopen : s.complete = false := by
      by_contra hclosed
      have hfinished := (h.finished (eq_true_of_ne_false hclosed)).1
      omega
    have haccepts := hspelled.accepts hadmitted
    rw [← h.parser] at haccepts
    have hfollows := h.follows hspelled
    have hnext : s.next .free policy = (.ok true, s.past content) := by
      rw [← h.policy_eq]
      refine Scanner.next_past hlive hopen ?_ hfollows
      rw [h.policy_eq, h.expected_eq, h.headers, h.context_eq]
      exact haccepts
    have hsplit : done ++ content :: rest = (done ++ [content]) ++ rest := by rw [List.append_assoc]; rfl
    obtain ⟨layouts, s', hsteps, hprogress⟩ := ih (h.past hopen haccepts hfollows) (hsplit ▸ hspelled)
    refine ⟨(s.past content).current.toList ++ layouts, s', ?_, hsplit ▸ hprogress⟩
    rw [List.length_cons, List.replicate_succ]
    unfold Scanner.steps
    rw [hnext]
    dsimp only
    rw [hsteps]
    rfl

/-- What a scanner is made with. -/
theorem Scanner.make_eq_ok {s : Scanner} : Scanner.make .free policy expected region context = .ok s
    ↔ Admitted policy expected region context.origin ∧ expected.retainedCount ≤ region.size / 7
      ∧ s = ⟨region, Parser.start region, expected, policy, context, none, 0, 0, 0, false, false⟩ := by
  unfold Scanner.make readStart
  simp only [bind_eq_ok, pass_eq_ok, require_eq_ok, exists_const, pure_eq_ok, mapError_eq_ok]
  constructor
  · rintro ⟨_, _, ⟨hfits, _⟩, _, hcounts, hdense, ⟨hbytes, hwork⟩, hseven, _, hfragments, _, rfl⟩
    exact ⟨⟨hfits, hcounts, hdense, hbytes, hwork, hfragments⟩, hseven, rfl⟩
  · rintro ⟨hadmitted, hseven, rfl⟩
    exact ⟨rfl, _, ⟨hadmitted.fits, rfl⟩, (), hadmitted.counts, hadmitted.dense,
      ⟨hadmitted.bytes, hadmitted.work⟩, hseven, rfl, hadmitted.fragments, rfl, rfl⟩

theorem Scanner.make_free {s : Scanner} (h : Scanner.make env policy expected region context = .ok s) :
    Scanner.make .free policy expected region context = .ok s := by
  unfold Scanner.make at h ⊢
  simp only [bind_eq_ok, pass_eq_ok, require_eq_ok, exists_const] at h ⊢
  obtain ⟨_, start, hstart, _, hcounts, hdense, hlimits, hseven, _, hfragments, _, h⟩ := h
  exact ⟨rfl, start, hstart, (), hcounts, hdense, hlimits, hseven, rfl, hfragments, rfl, h⟩

theorem Scanner.make_progress {s : Scanner} (h : Scanner.make env policy expected region context = .ok s) :
    Progress policy expected region context s [] := by
  obtain ⟨hadmitted, _, rfl⟩ := Scanner.make_eq_ok.mp (Scanner.make_free h)
  exact Progress.fresh (validateBatchCounts_eq_ok.mp hadmitted.counts).1.2.1

end Steps

/-! ## Materializing -/

theorem spellVaruint_unique {p : Parser} {first second : Nat} (hfirst : p.Begins (spellVaruint first))
    (hsecond : p.Begins (spellVaruint second)) (hsmall : first < 2 ^ 64) (hother : second < 2 ^ 64) :
    first = second := by
  obtain ⟨more, hmore⟩ := hfirst
  obtain ⟨others, hothers⟩ := hsecond
  have hone := @Base128.probe_digits 64 9 first more (by omega) hsmall
  have htwo := @Base128.probe_digits 64 9 second others (by omega) hother
  unfold spellVaruint at hmore hothers
  rw [hmore] at hone
  rw [hothers, hone] at htwo
  exact (Prod.mk.inj (Except.ok.inj htwo)).1

/-- A body spells one record: the decoder of ranges charges nothing, and cannot return two. -/
theorem spellBody_unique {body : Buffer} {first second : Content} {expected : DecodeContext}
    (hfirst : body.bytes = spellBody first) (hsecond : body.bytes = spellBody second)
    (htakes : Decodable policy expected first) (hother : Decodable policy expected second)
    (hsmall : body.size ≤ u64Max) : first = second := by
  have hfits : (⟨0, .bodyBytes⟩ : FieldContext).origin + (Parser.start body).total ≤ u64Max := by
    rw [Nat.zero_add]
    exact hsmall
  have hrest : (Parser.start body).rest = spellBody first := (Parser.start_rest body).trans hfirst
  have hrests : (Parser.start body).rest = spellBody second := (Parser.start_rest body).trans hsecond
  have hone := (@readBody_eq_ok _ (Mode.ranges 0) policy _ expected _ _ hfits).mpr
    ⟨first, hrest, htakes, rfl, costBody_ranges.trans_le (Nat.zero_le _)⟩
  have htwo := (@readBody_eq_ok _ (Mode.ranges 0) policy _ expected _ _ hfits).mpr
    ⟨second, hrests, hother, rfl, costBody_ranges.trans_le (Nat.zero_le _)⟩
  have hplaced := Except.ok.inj (hone.symm.trans htwo)
  have hdenotes : (Mode.ranges 0).Denotes (ByteRange.bytes body.bytes) body :=
    @Mode.ranges_denotes _ _ body.bytes.length _ (by rw [List.drop_zero, List.take_length])
  calc first = (placeBody (Mode.ranges 0) (Parser.start body) first).map (ByteRange.bytes body.bytes) :=
        (placeBody_denotes hdenotes hrest).symm
    _ = (placeBody (Mode.ranges 0) (Parser.start body) second).map (ByteRange.bytes body.bytes) := by
        rw [hplaced]
    _ = second := placeBody_denotes hdenotes hrests

/-- **Two records spelled at one cursor are one**, if a decoder would take both. -/
theorem spell_unique {p : Parser} {first second : Content} {expected : DecodeContext}
    (hfirst : p.Begins (spell first)) (hsecond : p.Begins (spell second))
    (htakes : Decodable policy expected first) (hother : Decodable policy expected second)
    (hsmall : (spell first).length ≤ policy.config.maxRecordBytes)
    (hlittle : (spell second).length ≤ policy.config.maxRecordBytes) : first = second := by
  have hmost := policy.maxRecordBytes_le
  rw [spell_length] at hsmall hlittle
  obtain ⟨hlead, _⟩ := Parser.begins_append.mp hfirst
  obtain ⟨hleads, _⟩ := Parser.begins_append.mp hsecond
  have hlengths := spellVaruint_unique hlead hleads (by omega) (by omega)
  have hbody : bodyAt p first = bodyAt p second := by
    unfold bodyAt
    rw [hlengths]
  refine spellBody_unique (bodyAt_bytes hfirst) (hbody ▸ bodyAt_bytes hsecond) htakes hother ?_
  unfold Buffer.size u64Max
  rw [bodyAt_bytes hfirst]
  omega

section Materialize

variable {expected : RegionContext} {region : Buffer} {context : FieldContext} {s : Scanner}
  {done : List Content}

theorem Scanner.materializeCurrent_eq_ok {work : Limits} {decoded : Record}
    (h : s.materializeCurrent env work = .ok decoded) :
    ∃ layout p', s.current = some layout ∧ decodeRecord env s.policy
        ⟨s.expected.timestampBase, s.expected.originalCount, layout.shape.headers.length⟩
        (Parser.start (s.extent layout.encoded)) (s.context.origin + layout.encoded.offset) .complete
      = (.ok decoded, p') := by
  unfold Scanner.materializeCurrent at h
  simp only [bind_eq_ok, pass_eq_ok, require_eq_ok, exists_const, pure_eq_ok, expect_eq_ok] at h
  obtain ⟨layout, hlayout, _, _, _, record, hdecoded, _, rfl⟩ := h
  split at hlayout
  next => cases hlayout
  next => exact ⟨layout, _, hlayout, Prod.ext hdecoded rfl⟩

/-- **What is materialized is what the layout names.** -/
theorem Progress.materialize {work : Limits} {decoded : Record}
    (hadmitted : Admitted policy expected region context.origin)
    (h : Progress policy expected region context s done)
    (hdecoded : s.materializeCurrent env work = .ok decoded) :
    ∃ layout, s.current = some layout
      ∧ layout.shape.map (ByteRange.bytes region.bytes) = decoded.content := by
  obtain ⟨layout, p', hcurrent, hrecord⟩ := Scanner.materializeCurrent_eq_ok hdecoded
  obtain ⟨before, content, rfl, rfl⟩ := h.current layout hcurrent
  refine ⟨_, hcurrent, ?_⟩
  have hbegins := h.begins
  rw [spellRegion_append, spellRegion_singleton] at hbegins
  obtain ⟨hbefore, hcontent⟩ := Parser.begins_append.mp hbegins
  obtain ⟨hwithin, htimestamp, hlogical⟩ :=
    h.belongs content (List.mem_append_right _ (List.mem_singleton_self _))
  have hbound := h.bound
  rw [headersIn_append, headersIn_singleton] at hbound
  have hbatch := (validateBatchCounts_eq_ok.mp hadmitted.counts).2.1.2
  -- the record is decoded from exactly the bytes that were stepped over
  have hextent : (s.extent (layoutAt ((Parser.start region).advance (spellRegion before).length)
      content).encoded).bytes = spell content := by
    unfold Scanner.extent layoutAt
    dsimp only
    rw [h.region_eq, Parser.slice_bytes, Parser.advance_consumed hbefore.length_le, Parser.start_consumed,
      Nat.zero_add]
    exact hcontent.take
  obtain ⟨haccepts, _⟩ := decodeRecord_free_eq_ok hrecord
  have hspelled : (Parser.start (s.extent (layoutAt ((Parser.start region).advance
      (spellRegion before).length) content).encoded)).Begins (spell content) := by
    unfold Parser.Begins
    exact ⟨[], (List.append_nil _).trans ((Parser.start_rest _).trans hextent).symm⟩
  obtain ⟨hkey, hvalue⟩ := hwithin.payloads
  have hdecodable : Decodable policy ⟨expected.timestampBase, expected.originalCount,
      content.headers.length⟩ content :=
    ⟨hwithin.attributes, htimestamp, hlogical, hkey, hvalue,
      Nat.le_min.mpr ⟨hwithin.headers, Nat.le_min.mpr ⟨by omega, Nat.le_refl _⟩⟩, hwithin.names,
      hwithin.payload⟩
  have hother := haccepts.decodable
  have htotal := haccepts.total
  rw [h.policy_eq, h.expected_eq, layoutAt_headers] at hother
  rw [h.policy_eq] at htotal
  obtain rfl := spell_unique hspelled haccepts.spelled hdecodable hother hwithin.total htotal
  have hbytes := layoutAt_bytes hcontent
  rwa [Parser.advance_buffer] at hbytes

end Materialize

end KwaqueStorage.Records
