import KwaqueStorage.Records.Region

/-!
# Scanning against decoding one record after the other

The other way to read a region is to call `decode_record` on it again and again. Both ways read the same
records, but decoding shares the payloads, and a policy limits how many fragments the payloads of one
record may come in. `region_scan_refines_decoding` compares the two: a scanner completes exactly on the
regions that are spelled as they have to be, and decoding takes the same regions as long as the payloads
of every record come in few enough fragments.
-/

namespace KwaqueStorage.Records

open Extent (u64Max)
open Layout Lib

/-- `decode_record` on one record after the other, with the headers that are left for each. -/
def decodeAll (policy : Limits) (expected : RegionContext) (origin : Nat) :
    Nat → Nat → Parser → Except CodecError (List Record × Parser)
  | 0, _, p => .ok ([], p)
  | count + 1, headers, p =>
    match decodeRecord .free policy (expected.record headers) p origin .complete with
    | (.error e, _) => .error e
    | (.ok record, p') => do
      let (records, p'') ← decodeAll policy expected origin count (headers + record.headers.length) p'
      pure (record :: records, p'')

/-- The payloads of every record come in few enough fragments where it stands. -/
def PayloadsFit (policy : Limits) (region : Buffer) (contents : List Content) : Prop :=
  ∀ before content after, contents = before ++ content :: after →
    costAt (fun _ => Mode.buffers) ((Parser.start region).advance (spellRegion before).length) content
      ≤ policy.config.maxBufferFragments

/-- Records that a decoder accepts one after the other. -/
def AllAccepted (policy : Limits) (expected : RegionContext) (origin : Nat) :
    Nat → Parser → List Content → Prop
  | _, _, [] => True
  | headers, p, content :: rest =>
    Accepts (fun _ => Mode.buffers) policy (expected.record headers) p origin content
      ∧ AllAccepted policy expected origin (headers + content.headers.length)
        (p.advance (spell content).length) rest

variable {policy : Limits} {expected : RegionContext} {region : Buffer} {origin headers : Nat}
  {p p' : Parser}

theorem Record.content_headers_length (record : Record) :
    record.content.headers.length = record.headers.length := by
  rw [record.content_headers, List.length_map]

/-- A record is decoded exactly when it is accepted. -/
theorem decodeRecord_of_accepts {expected : DecodeContext} {content : Content}
    (h : Accepts (fun _ => Mode.buffers) policy expected p origin content) :
    ∃ record, decodeRecord .free policy expected p origin .complete
        = (.ok record, p.advance (spell content).length) ∧ record.content = content := by
  have hdecoded := (@decodeRecordImpl_eq_ok _ (fun _ => Mode.buffers) policy expected .complete p _
    origin _).mpr ⟨content, h, rfl, rfl⟩
  refine ⟨_, decodeRecord_eq_ok.mpr ⟨_, hdecoded, rfl⟩, ?_⟩
  rw [Shape.record_content]
  exact placeAt_denotes h.spelled Mode.buffers_denotes

theorem decodeAll_accepted {count : Nat} {records : List Record}
    (h : decodeAll policy expected origin count headers p = .ok (records, p')) :
    records.length = count ∧ AllAccepted policy expected origin headers p (records.map Record.content)
      ∧ p.Begins (spellRegion (records.map Record.content))
      ∧ p' = p.advance (spellRegion (records.map Record.content)).length := by
  induction count generalizing headers p records with
  | zero =>
    cases h
    exact ⟨rfl, trivial, List.nil_prefix, Parser.advance_zero.symm⟩
  | succ count ih =>
    unfold decodeAll at h
    split at h
    next => cases h
    next record q hdecoded =>
      simp only [bind_eq_ok, Prod.exists, pure_eq_ok, Prod.mk.injEq] at h
      obtain ⟨rest, q', hrest, rfl, rfl⟩ := h
      obtain ⟨haccepts, rfl⟩ := decodeRecord_free_eq_ok hdecoded
      obtain ⟨hlength, hall, hbegins, rfl⟩ := ih hrest
      have hwhole : p.Begins (spell record.content ++ spellRegion (rest.map Record.content)) :=
        Parser.begins_append.mpr ⟨haccepts.spelled, hbegins⟩
      refine ⟨congrArg Nat.succ hlength, ⟨haccepts, ?_⟩, hwhole, ?_⟩
      · rw [record.content_headers_length]
        exact hall
      · have hle := hwhole.length_le
        rw [List.length_append] at hle
        rw [Parser.advance_advance hle, ← List.length_append]
        rfl

theorem decodeAll_succeeds {contents : List Content}
    (h : AllAccepted policy expected origin headers p contents) :
    ∃ records p', decodeAll policy expected origin contents.length headers p = .ok (records, p')
      ∧ records.map Record.content = contents := by
  induction contents generalizing headers p with
  | nil => exact ⟨[], p, rfl, rfl⟩
  | cons content rest ih =>
    obtain ⟨haccepts, hrest⟩ := h
    obtain ⟨record, hdecoded, rfl⟩ := decodeRecord_of_accepts haccepts
    obtain ⟨records, p', hrecords, rfl⟩ := ih hrest
    refine ⟨record :: records, p', ?_, rfl⟩
    rw [List.length_cons]
    unfold decodeAll
    rw [hdecoded]
    dsimp only
    rw [← record.content_headers_length, hrecords]
    rfl

/-- What is accepted in order belongs to the region, and its payloads fit. -/
theorem AllAccepted.belongs {contents : List Content} {before : List Content}
    (hbegins : (Parser.start region).Begins (spellRegion (before ++ contents)))
    (h : AllAccepted policy expected origin headers
      ((Parser.start region).advance (spellRegion before).length) contents) :
    (∀ content ∈ contents, Belongs policy expected content)
      ∧ ∀ first content after, contents = first ++ content :: after →
        costAt (fun _ => Mode.buffers)
          ((Parser.start region).advance (spellRegion (before ++ first)).length) content
        ≤ policy.config.maxBufferFragments := by
  induction contents generalizing headers before with
  | nil =>
    refine ⟨nofun, ?_⟩
    intro first content after hnil
    cases first with
    | nil => cases hnil
    | cons other more => cases hnil
  | cons content rest ih =>
    obtain ⟨haccepts, hrest⟩ := h
    have hsplit : before ++ content :: rest = (before ++ [content]) ++ rest := by
      rw [List.append_assoc]
      rfl
    have hfront : (Parser.start region).Begins (spellRegion (before ++ [content])) := by
      rw [hsplit, spellRegion_append] at hbegins
      exact (Parser.begins_append.mp hbegins).1
    rw [advance_spellRegion hfront] at hrest
    obtain ⟨hbelongs, hcosts⟩ := ih (hsplit ▸ hbegins) hrest
    constructor
    · intro other hmem
      rcases List.mem_cons.mp hmem with rfl | hmem
      · exact ⟨haccepts.within, haccepts.decodable.timestamp, haccepts.decodable.logical⟩
      · exact hbelongs other hmem
    · intro first other after heq
      cases first with
      | nil =>
        obtain ⟨rfl, rfl⟩ := List.cons.inj heq
        rw [List.append_nil]
        exact haccepts.charged
      | cons head more =>
        obtain ⟨rfl, rfl⟩ := List.cons.inj heq
        have hcost := hcosts more other after rfl
        rwa [List.append_assoc] at hcost

/-- The records of a spelled region are accepted in order, if their payloads fit. -/
theorem RegionSpelled.allAccepted {context : FieldContext} {before rest : List Content}
    (hadmitted : Admitted policy expected region context.origin)
    (h : RegionSpelled policy expected region (before ++ rest))
    (hfit : PayloadsFit policy region (before ++ rest)) :
    AllAccepted policy expected context.origin (headersIn before)
      ((Parser.start region).advance (spellRegion before).length) rest := by
  induction rest generalizing before with
  | nil => trivial
  | cons content rest ih =>
    have haccepts := h.accepts hadmitted
    have hsplit : before ++ content :: rest = (before ++ [content]) ++ rest := by
      rw [List.append_assoc]
      rfl
    have hfront : (Parser.start region).Begins (spellRegion (before ++ [content])) := by
      have hbytes := h.bytes
      rw [hsplit, spellRegion_append] at hbytes
      exact (Parser.rest_eq_append.mp ((Parser.start_rest region).trans hbytes)).1
    have hlater := ih (hsplit ▸ h) (hsplit ▸ hfit)
    rw [headersIn_append, headersIn_singleton, ← advance_spellRegion hfront] at hlater
    exact ⟨{ haccepts with charged := hfit before content rest rfl }, hlater⟩

/-- **Decoding takes the regions that are spelled as they have to be**, if the payloads of every record
    come in few enough fragments. -/
theorem decodeAll_iff {context : FieldContext} (hadmitted : Admitted policy expected region context.origin)
    {contents : List Content} :
    (RegionSpelled policy expected region contents ∧ PayloadsFit policy region contents)
      ↔ ∃ records p', decodeAll policy expected context.origin expected.retainedCount 0
            (Parser.start region) = .ok (records, p')
          ∧ records.map Record.content = contents ∧ p'.rest = [] ∧ InOrder expected.kind contents
          ∧ headersIn contents = expected.headerCount := by
  constructor
  · rintro ⟨hspelled, hfit⟩
    have haccepted := @RegionSpelled.allAccepted policy expected region context [] contents hadmitted hspelled
      hfit
    rw [show (spellRegion []).length = 0 from rfl, Parser.advance_zero] at haccepted
    obtain ⟨records, p', hrecords, rfl⟩ := decodeAll_succeeds haccepted
    obtain ⟨_, _, _, rfl⟩ := decodeAll_accepted hrecords
    rw [hspelled.count] at hrecords
    refine ⟨records, _, hrecords, rfl, ?_, hspelled.ordered, hspelled.headers⟩
    refine (Parser.rest_eq_append.mp ?_).2
    rw [List.append_nil]
    exact (Parser.start_rest region).trans hspelled.bytes
  · rintro ⟨records, p', hrecords, rfl, hrest, hordered, hheaders⟩
    obtain ⟨hcount, haccepted, hbegins, rfl⟩ := decodeAll_accepted hrecords
    rw [← Parser.advance_zero (p := Parser.start region)] at haccepted
    obtain ⟨hbelongs, hcosts⟩ := @AllAccepted.belongs policy expected region _ _ _ [] hbegins haccepted
    have hbytes := Parser.rest_eq_append.mpr ⟨hbegins, hrest⟩
    rw [List.append_nil] at hbytes
    exact ⟨⟨hbytes, by rw [List.length_map, hcount], hbelongs, hordered, hheaders⟩, hcosts⟩

/-- **A scanner completes exactly on the regions that are spelled as they have to be**, given the counts
    and limits it is made with. Decoding one record after the other takes the same regions, as long as the
    payloads of every record come in few enough fragments. Whatever is materialized is what the ranges of
    the layout name. And behind a step that failed no step succeeds. -/
theorem region_scan_refines_decoding (policy : Limits) (expected : RegionContext) (region : Buffer)
    (context : FieldContext) :
    ((∃ made envs s layouts s', Scanner.make made policy expected region context = .ok s
        ∧ s.steps policy envs = .ok (layouts, s') ∧ s'.complete = true)
      ↔ Admitted policy expected region context.origin
        ∧ ∃ contents, RegionSpelled policy expected region contents)
    ∧ (∀ contents, Admitted policy expected region context.origin →
        RegionSpelled policy expected region contents →
        ∃ s layouts s', Scanner.make .free policy expected region context = .ok s
          ∧ s.steps policy (List.replicate expected.retainedCount .free) = .ok (layouts, s')
          ∧ s'.complete = true)
    ∧ (∀ contents, Admitted policy expected region context.origin →
        ((RegionSpelled policy expected region contents ∧ PayloadsFit policy region contents)
          ↔ ∃ records p', decodeAll policy expected context.origin expected.retainedCount 0
              (Parser.start region) = .ok (records, p')
            ∧ records.map Record.content = contents ∧ p'.rest = [] ∧ InOrder expected.kind contents
            ∧ headersIn contents = expected.headerCount))
    ∧ (∀ made envs s layouts s' env work decoded, Scanner.make made policy expected region context = .ok s →
        s.steps policy envs = .ok (layouts, s') → s'.materializeCurrent env work = .ok decoded →
        ∃ layout, s'.current = some layout
          ∧ layout.shape.map (ByteRange.bytes region.bytes) = decoded.content)
    ∧ ∀ (s s' : Scanner) (env : Environment) (work : Limits) (e : CodecError),
        s.next env work = (.error e, s') →
        ∀ (calls : List (Environment × Limits)) (env' : Environment) (work' : Limits),
          ∃ e', ((calls.foldl (fun s call => (s.next call.1 call.2).2) s').next env' work').1
            = .error e' := by
  have hthrough : ∀ contents, Admitted policy expected region context.origin →
      RegionSpelled policy expected region contents →
      ∃ s layouts s', Scanner.make .free policy expected region context = .ok s
        ∧ s.steps policy (List.replicate expected.retainedCount .free) = .ok (layouts, s')
        ∧ s'.complete = true := by
    intro contents hadmitted hspelled
    have hseven : expected.retainedCount ≤ region.size / 7 := by
      have hle := @seven_mul_le_spellRegion contents
      rw [← hspelled.bytes, hspelled.count] at hle
      change _ ≤ region.bytes.length / 7
      omega
    have hmade := Scanner.make_eq_ok.mpr ⟨hadmitted, hseven, rfl⟩
    obtain ⟨layouts, s', hsteps, hprogress⟩ :=
      (Scanner.make_progress hmade).through hadmitted (List.nil_append contents ▸ hspelled)
    rw [hspelled.count] at hsteps
    refine ⟨_, layouts, s', hmade, hsteps, ?_⟩
    by_contra hopen
    have hless := hprogress.unfinished (eq_false_of_ne_true hopen)
    rw [List.nil_append, hspelled.count] at hless
    exact Nat.lt_irrefl _ hless
  refine ⟨⟨?_, ?_⟩, hthrough, ?_, ?_, ?_⟩
  · rintro ⟨made, envs, s, layouts, s', hmade, hsteps, hcomplete⟩
    obtain ⟨passed, hprogress⟩ := (Scanner.make_progress hmade).steps hsteps
    exact ⟨(Scanner.make_eq_ok.mp (Scanner.make_free hmade)).1, _, hprogress.complete hcomplete⟩
  · rintro ⟨hadmitted, contents, hspelled⟩
    obtain ⟨s, layouts, s', hmade, hsteps, hcomplete⟩ := hthrough contents hadmitted hspelled
    exact ⟨.free, _, s, layouts, s', hmade, hsteps, hcomplete⟩
  · intro contents hadmitted
    exact decodeAll_iff hadmitted
  · intro made envs s layouts s' env work decoded hmade hsteps hdecoded
    obtain ⟨passed, hprogress⟩ := (Scanner.make_progress hmade).steps hsteps
    exact hprogress.materialize (Scanner.make_eq_ok.mp (Scanner.make_free hmade)).1 hdecoded
  · intro s s' env work e hfailed calls env' work'
    have hterminal : ∀ (s : Scanner), s.terminal = true →
        (calls.foldl (fun s call => (s.next call.1 call.2).2) s).terminal = true := by
      induction calls with
      | nil => exact fun _ h => h
      | cons call rest ih =>
        intro s h
        rw [List.foldl_cons, Scanner.next_terminal h]
        exact ih s h
    rw [Scanner.next_terminal (hterminal s' (Scanner.next_error hfailed))]
    exact ⟨_, rfl⟩

/-- A region of one record, in one fragment. -/
def exampleRegion : Buffer := ⟨[[7, 0, 0, 0, 2, 7, 1, 0]], by decide⟩

theorem exampleRegion_completes : ∃ s layouts s',
    Scanner.make .free {} ⟨0, 1, 1, 0, .denseOriginal⟩ exampleRegion ⟨0, .bodyBytes⟩ = .ok s
      ∧ s.steps {} [.free] = .ok (layouts, s') ∧ s'.complete = true := by
  have hadmitted : Admitted {} ⟨0, 1, 1, 0, .denseOriginal⟩ exampleRegion 0 :=
    ⟨by decide, rfl, fun _ => rfl, by decide, by decide, by decide⟩
  have hwithin : Within {} exampleRecord.content :=
    ⟨rfl, by decide, nofun, by decide, by decide +kernel⟩
  have hspelled : RegionSpelled {} ⟨0, 1, 1, 0, .denseOriginal⟩ exampleRegion [exampleRecord.content] := by
    refine ⟨rfl, rfl, ?_, ⟨rfl, ?_⟩, rfl⟩
    · intro content hmem
      obtain rfl := List.mem_singleton.mp hmem
      exact ⟨hwithin, by decide, by decide⟩
    · intro first hmem
      cases hmem
      rfl
  exact (region_scan_refines_decoding {} ⟨0, 1, 1, 0, .denseOriginal⟩ exampleRegion
    ⟨0, .bodyBytes⟩).2.1 _ hadmitted hspelled

/-- A policy that allows one fragment scans a record with a key and a value, and does not decode it. -/
theorem region_scanned_not_decoded :
    (∃ s layouts s', Scanner.make .free { config := { maxBufferFragments := 1 } }
          ⟨0, 1, 1, 0, .denseOriginal⟩ ⟨[[8, 0, 0, 0, 2, 7, 2, 8, 0]], by decide⟩ ⟨0, .bodyBytes⟩ = .ok s
        ∧ s.steps { config := { maxBufferFragments := 1 } } [.free] = .ok (layouts, s')
        ∧ s'.complete = true)
      ∧ (decodeRecord .free { config := { maxBufferFragments := 1 } } ⟨0, 1, 0⟩
          (Parser.start ⟨[[8, 0, 0, 0, 2, 7, 2, 8, 0]], by decide⟩) 0 .complete).1
        = .error ⟨.resourceExhausted, .value, 7⟩ :=
  ⟨⟨_, _, _, rfl, rfl, rfl⟩, rfl⟩

end KwaqueStorage.Records
