import KwaqueStorage.Bytes.Growth

/-!
# What a builder's operations do

Every operation that adds to a builder either extends what it presents by exactly the bytes it was given, or
leaves the builder as it was. A long append that runs out of room in the middle has filled the tail and added
fragments by then; the mark it took brings back the very same builder, and what it wrote lies in the slack.
-/

namespace KwaqueStorage.Bytes

open Lib

namespace Builder

variable {memory later : Memory} {b b' : Builder}

/-- What an operation adds: the bytes it was given, or nothing if it is refused. -/
def added {α : Type} (answer : Except Errc α) (bytes : List UInt8) : List UInt8 :=
  match answer with
  | .ok _ => bytes
  | .error _ => []

/-- What an operation comes to. -/
structure Done (memory : Memory) (b : Builder) (result : Except Errc Unit × Memory × Builder)
    (donated : List (Fragment Window)) (bytes : List UInt8) : Prop where
  sound : result.2.2.Sound result.2.1
  extended : b.Extends memory result.2.1 result.2.2 donated (added result.1 bytes)
  refused : ∀ e, result.1 = .error e → result.2.2 = b

variable {bytes : List UInt8}

/-- More fragments may be given than are taken over. -/
theorem Done.donating {result : Except Errc Unit × Memory × Builder} {donated more : List (Fragment Window)}
    (h : Done memory b result donated bytes) (hmore : ∀ fragment ∈ donated, fragment ∈ more)
    : Done memory b result more bytes where
  sound := h.sound
  extended := { h.extended with
    origin := fun fragment hmem =>
      (h.extended.origin fragment hmem).imp_right (Or.imp_left (hmore fragment)) }
  refused := h.refused

theorem Sound.keeps (h : b.Sound memory) (hkeeps : memory.Keeps later) : b.Sound later :=
  { h with toShaped := h.toShaped.keeps hkeeps }

/-- Nothing happened. -/
theorem Sound.still (h : b.Sound memory) {answer : Except Errc Unit} {donated : List (Fragment Window)}
    (hnothing : added answer bytes = []) :
    Done memory b (answer, memory, b) donated bytes where
  sound := h
  extended := by
    rw [hnothing]
    exact { Extends.refl with origin := fun _ hmem => .inl hmem }
  refused _ _ := rfl

/-- A refusal that only wrote to the slack. -/
theorem Sound.rolled (h : b.Sound memory) {e : Errc} {donated : List (Fragment Window)}
    (hkeeps : memory.Keeps later)
    (hframe : ∀ window, memory.Valid window → b.Apart window → later.read window = memory.read window) :
    Done memory b (.error e, later, b) donated bytes where
  sound := h.keeps hkeeps
  extended := { h.extends_memory hkeeps hframe with origin := fun _ hmem => .inl hmem }
  refused _ _ := rfl

/-- Bytes that were added and are then counted. -/
theorem Sound.counted (h : b.Sound memory) {donated : List (Fragment Window)} {size : Nat}
    (hshaped : b'.Shaped later) (hextends : b.Extends memory later b' donated bytes)
    (htotal : b.size + bytes.length ≤ b.config.maxTotalBytes) (hsize : size = b.size + bytes.length) :
    Done memory b (.ok (), later, { b' with size }) donated bytes where
  sound := by
    subst hsize
    refine { hshaped with size := ?_, total := ?_ }
    · change b.size + bytes.length = sizes b'.presented
      rw [hshaped.sizes_eq, hextends.content, List.length_append, ← h.toShaped.sizes_eq, h.size]
    · change b.size + bytes.length ≤ b'.config.maxTotalBytes
      rw [hextends.config]
      exact htotal
  extended := { hextends with }
  refused _ hrefused := nomatch hrefused

theorem ensureAppendable_eq_ok {incoming : Nat} {u : Unit} : b.ensureAppendable incoming = .ok u ↔
    b.finished = false ∧ b.size + incoming ≤ b.config.maxTotalBytes := by
  unfold ensureAppendable
  simp only [bind_eq_ok, require_eq_ok, exists_const]

/-! ## Growing -/

/-- Growing the tail is refused, or gives one with room for what is requested. -/
theorem Shaped.growTail (h : b.Shaped memory) (hopen : b.finished = false) (requested : Nat) :
    b.growTail memory requested = (.error .resourceExhausted, memory, b)
    ∨ ∃ later grown, b.growTail memory requested = (.ok (), later, grown) ∧ grown.Shaped later
      ∧ b.Extends memory later grown [] [] ∧ 0 < grown.tailCapacity
      ∧ min requested b.config.maxFragmentBytes ≤ grown.tailCapacity
      ∧ (∃ tail, grown.fragments = b.presented ++ [tail]) ∧ grown.size = b.size
      ∧ grown.finished = b.finished := by
  obtain ⟨hpos, _, hleast⟩ := b.nextAllocation_spec h.config requested
  have hfew := h.few
  unfold Builder.growTail
  by_cases hfull : b.fragments.length = b.config.maxFragments
  · rw [if_pos hfull]
    exact .inl rfl
  rw [if_neg hfull]
  by_cases hbacked : b.retainedBytes + b.nextAllocation requested > b.config.maxRetainedBytes
  · rw [if_pos hbacked]
    exact .inl rfl
  rw [if_neg hbacked]
  have hlength : (List.replicate (b.nextAllocation requested) (0 : UInt8)).length
      = b.nextAllocation requested := List.length_replicate
  obtain ⟨hshaped, hextends⟩ := h.push (List.replicate (b.nextAllocation requested) 0) 0
    (b.nextAllocation requested) hopen (Nat.zero_le _) (by omega) (by rw [hlength]; omega)
  rw [hlength] at hshaped hextends
  refine .inr ⟨_, _, rfl, hshaped, hextends, ?_, ?_, ⟨_, rfl⟩, rfl, rfl⟩
  · rw [@tailCapacity_concat _ b.presented _ rfl]
    exact hpos
  · rw [@tailCapacity_concat _ b.presented _ rfl]
    exact hleast

/-- A tail without room is presented whole. -/
theorem Shaped.presented_eq (h : b.Shaped memory) (hfull : b.tailCapacity = 0) :
    b.presented = b.fragments := by
  rcases b.fragments_cases with hnil | ⟨front, tail, hconcat⟩
  · rw [presented_nil hnil, hnil]
  · have hfits := h.tail tail (getLast_of_concat hconcat)
    rw [tailCapacity_concat hconcat] at hfull
    exact presented_of_full hconcat (by omega)

/-! ## Appending bytes -/

/-- **The loop of an append** writes all bytes, or is refused with the fragments it started from in front. -/
theorem Shaped.appendLoop (h : b.Shaped memory) (hopen : b.finished = false) {rounds : Nat}
    (hrounds : bytes.length ≤ rounds) :
    (∃ later grown, b.appendLoop rounds memory bytes = (.ok (), later, grown) ∧ grown.Shaped later
      ∧ b.Extends memory later grown [] bytes ∧ grown.size = b.size)
    ∨ ∃ e later grown, b.appendLoop rounds memory bytes = (.error e, later, grown) ∧ memory.Keeps later
      ∧ (∀ window, memory.Valid window → b.Apart window → later.read window = memory.read window)
      ∧ b.fragments <+: grown.fragments ∧ grown.config = b.config ∧ grown.size = b.size
      ∧ grown.finished = b.finished := by
  induction rounds generalizing memory b bytes with
  | zero =>
    obtain rfl := List.length_eq_zero_iff.mp (Nat.le_zero.mp hrounds)
    exact .inl ⟨memory, b, rfl, h, Extends.refl, rfl⟩
  | succ rounds ih =>
    by_cases hempty : bytes = []
    · subst hempty
      exact .inl ⟨memory, b, rfl, h, Extends.refl, rfl⟩
    have hnonempty : bytes.isEmpty = false := List.isEmpty_eq_false_iff.mpr hempty
    have hpos : 0 < bytes.length := List.length_pos_iff.mpr hempty
    -- what one round does from a tail that has room
    have hround : ∀ {memory' : Memory} {roomy : Builder}, roomy.Shaped memory' → roomy.finished = false →
        0 < roomy.tailCapacity → b.Extends memory memory' roomy [] [] → b.fragments <+: roomy.fragments →
        roomy.size = b.size →
        let span := min roomy.tailCapacity bytes.length
        let filled := roomy.fill memory' (bytes.take span)
        (∃ later grown, filled.2.appendLoop rounds filled.1 (bytes.drop span) = (.ok (), later, grown)
          ∧ grown.Shaped later ∧ b.Extends memory later grown [] bytes ∧ grown.size = b.size)
        ∨ ∃ e later grown, filled.2.appendLoop rounds filled.1 (bytes.drop span) = (.error e, later, grown)
          ∧ memory.Keeps later
          ∧ (∀ window, memory.Valid window → b.Apart window → later.read window = memory.read window)
          ∧ b.fragments <+: grown.fragments ∧ grown.config = b.config ∧ grown.size = b.size
          ∧ grown.finished = b.finished := by
      intro memory' roomy hroomy hstays hcapacity hextends hfront hsize span filled
      have hspan : 0 < span := Nat.lt_min.mpr ⟨hcapacity, hpos⟩
      have hlength : (bytes.take span).length = span := by
        rw [List.length_take]
        exact Nat.min_eq_left (Nat.min_le_right _ _)
      obtain ⟨written, hfill, hshaped, hwritten⟩ := hroomy.fill (bytes.take span)
        (List.length_pos_iff.mp (hlength.symm ▸ hspan)) (hlength.symm ▸ Nat.min_le_left _ _)
      have hfilled : filled = (written, { roomy with tailUsed := roomy.tailUsed + (bytes.take span).length }) :=
        hfill
      rw [hfilled]
      dsimp only
      have hsofar := hextends.trans hwritten
      have hless : (bytes.drop span).length ≤ rounds := by
        rw [List.length_drop]
        omega
      rcases ih hshaped hstays hless with ⟨later, grown, hloop, hgrown, hrest, hsame⟩
        | ⟨e, later, grown, hloop, hkeeps, hframe, hprefix, hconfig, hsame, hfinished⟩
      · refine .inl ⟨later, grown, hloop, hgrown, ?_, hsame.trans hsize⟩
        have hall := hsofar.trans hrest
        simp only [List.nil_append, List.take_append_drop] at hall
        exact hall
      · refine .inr ⟨e, later, grown, hloop, hsofar.keeps.trans hkeeps, ?_, hfront.trans hprefix,
          hconfig.trans hextends.config, hsame.trans hsize, hfinished.trans (hstays.trans hopen.symm)⟩
        intro window hvalid hapart
        exact (hframe window (hvalid.keeps hsofar.keeps) (hsofar.apart hvalid hapart)).trans
          (hsofar.frame window hvalid hapart)
    unfold Builder.appendLoop
    rw [hnonempty]
    by_cases hfull : b.tailCapacity = 0
    · rcases h.growTail hopen bytes.length with hrefused
        | ⟨later, grown, hgrow, hshaped, hextends, hcapacity, _, ⟨tail, hfragments⟩, hsize, hfinished⟩
      · refine .inr ⟨.resourceExhausted, memory, b, ?_, Memory.Keeps.refl, fun _ _ _ => rfl,
          List.prefix_rfl, rfl, rfl, rfl⟩
        rw [if_pos hfull, hrefused]
        rfl
      · rw [if_pos hfull, hgrow]
        refine hround hshaped (hfinished.trans hopen) hcapacity hextends ?_ hsize
        rw [hfragments, h.presented_eq hfull]
        exact List.prefix_append _ _
    · rw [if_neg hfull]
      exact hround h hopen (Nat.pos_of_ne_zero hfull) Extends.refl List.prefix_rfl rfl

/-- A builder that only grew is rewound to the very builder the mark was taken of. -/
theorem Shaped.rewind_eq (h : b.Shaped memory) {grown : Builder} (hfront : b.fragments <+: grown.fragments)
    (hconfig : grown.config = b.config) (hsize : grown.size = b.size) (hfinished : grown.finished = b.finished) :
    grown.rewind b = b := by
  have htake : grown.fragments.take b.fragments.length = b.fragments :=
    (List.prefix_iff_eq_take.mp hfront).symm
  unfold Builder.rewind
  rw [htake]
  dsimp only
  rw [hconfig, hsize, hfinished]
  cases hlast : b.fragments.getLast? with
  | none =>
    exact congrArg (fun tailUsed => { b with tailUsed })
      (h.blank (List.getLast?_eq_none_iff.mp hlast)).symm
  | some tail => exact congrArg (fun tailUsed => { b with tailUsed }) (Nat.min_eq_left (h.tail tail hlast))

theorem Sound.append (h : b.Sound memory) (bytes : List UInt8) :
    Done memory b (b.append memory bytes) [] bytes := by
  unfold Builder.append
  split
  next e hrefused => exact h.still rfl
  next hadmitted =>
    obtain ⟨hopen, htotal⟩ := ensureAppendable_eq_ok.mp hadmitted
    by_cases hempty : bytes = []
    · subst hempty
      exact h.still rfl
    have hnonempty : bytes.isEmpty = false := List.isEmpty_eq_false_iff.mpr hempty
    rw [hnonempty]
    rcases h.toShaped.appendLoop hopen (Nat.le_refl bytes.length)
      with ⟨later, grown, hloop, hshaped, hextends, hsize⟩
      | ⟨e, later, grown, hloop, hkeeps, hframe, hfront, hconfig, hsize, hfinished⟩
    · rw [hloop]
      exact h.counted hshaped hextends htotal (congrArg (· + bytes.length) hsize)
    · rw [hloop]
      dsimp only
      rw [if_neg Bool.false_ne_true, h.toShaped.rewind_eq hfront hconfig hsize hfinished]
      exact h.rolled hkeeps hframe

/-- Bytes that fit in the tail of a builder that extends another are written there and counted. -/
theorem Sound.filled (h : b.Sound memory) {roomy : Builder} (hempty : bytes ≠ [])
    (hroomy : roomy.Shaped later) (hextends : b.Extends memory later roomy [] [])
    (hfits : bytes.length ≤ roomy.tailCapacity) (htotal : b.size + bytes.length ≤ b.config.maxTotalBytes)
    (hsize : roomy.size = b.size) :
    Done memory b (.ok (), (roomy.fill later bytes).1,
      { (roomy.fill later bytes).2 with size := (roomy.fill later bytes).2.size + bytes.length }) [] bytes := by
  obtain ⟨written, hfill, hshaped, hwritten⟩ := hroomy.fill bytes hempty hfits
  rw [hfill]
  exact h.counted hshaped (hextends.trans hwritten) htotal (congrArg (· + bytes.length) hsize)

theorem Sound.appendFragmentCopy (h : b.Sound memory) (bytes : List UInt8) :
    Done memory b (b.appendFragmentCopy memory bytes) [] bytes := by
  unfold Builder.appendFragmentCopy
  split
  next e hrefused => exact h.still rfl
  next hadmitted =>
    obtain ⟨hopen, htotal⟩ := ensureAppendable_eq_ok.mp hadmitted
    by_cases hlong : bytes.length > b.config.maxFragmentBytes
    · rw [if_pos hlong]
      exact h.still rfl
    rw [if_neg hlong]
    by_cases hzero : bytes.length = 0
    · obtain rfl := List.length_eq_zero_iff.mp hzero
      exact h.still rfl
    have hempty : bytes ≠ [] := fun hnil => hzero (congrArg List.length hnil)
    rw [if_neg hzero]
    by_cases hsmall : bytes.length ≤ packCopyThreshold ∧ bytes.length ≤ b.config.maxFragmentBytes
    · rw [if_pos hsmall]
      by_cases hroom : b.tailCapacity < bytes.length
      · rw [if_pos hroom]
        by_cases hfull : b.fragments.length = b.config.maxFragments
        · rw [if_pos hfull]
          exact h.still rfl
        · rw [if_neg hfull]
          rcases h.toShaped.growTail hopen bytes.length with hrefused
            | ⟨later, grown, hgrow, hshaped, hextends, _, hleast, _, hsize, _⟩
          · rw [hrefused]
            exact h.still rfl
          · rw [hgrow]
            exact h.filled hempty hshaped hextends (by omega) htotal hsize
      · rw [if_neg hroom]
        exact h.filled hempty h.toShaped Extends.refl (by omega) htotal rfl
    · rw [if_neg hsmall]
      by_cases hfull : b.fragments.length = b.config.maxFragments
      · rw [if_pos hfull]
        exact h.still rfl
      rw [if_neg hfull]
      by_cases hbacked : b.retainedBytes + bytes.length > b.config.maxRetainedBytes
      · rw [if_pos hbacked]
        exact h.still rfl
      rw [if_neg hbacked]
      have hfew := h.few
      obtain ⟨hshaped, hextends⟩ := h.toShaped.push bytes bytes.length b.lastAllocation hopen
        (Nat.le_refl _) (by omega) (by omega)
      rw [List.take_length] at hextends
      exact h.counted hshaped hextends htotal rfl

theorem Sound.reserve (h : b.Sound memory) (bytes : Nat) :
    Done memory b (b.reserve memory bytes) [] [] := by
  unfold Builder.reserve
  by_cases hfinished : b.finished = true
  · rw [if_pos hfinished]
    exact h.still rfl
  rw [if_neg hfinished]
  by_cases hzero : bytes = 0
  · rw [if_pos hzero]
    exact h.still rfl
  rw [if_neg hzero]
  by_cases hlong : bytes > b.config.maxFragmentBytes
  · rw [if_pos hlong]
    exact h.still rfl
  rw [if_neg hlong]
  split
  next e hrefused => exact h.still rfl
  next hadmitted =>
    by_cases hroom : b.tailCapacity ≥ bytes
    · rw [if_pos hroom]
      exact h.still rfl
    rw [if_neg hroom]
    rcases h.toShaped.growTail (eq_false_of_ne_true hfinished) bytes with hrefused
      | ⟨later, grown, hgrow, hshaped, hextends, _, _, _, hsize, _⟩
    · rw [hrefused]
      exact h.still rfl
    · rw [hgrow]
      exact h.counted hshaped hextends h.total hsize

/-! ## Taking over buffers -/

theorem packedCount_le {limit : Nat} {fragments : List (Fragment Window)} :
    packedCount limit fragments ≤ fragments.length := by
  induction fragments generalizing limit with
  | nil => exact Nat.le_refl _
  | cons fragment more ih =>
    rw [packedCount]
    split
    · exact Nat.zero_le _
    · exact Nat.succ_le_succ ih

/-- What is packed fits in what may be copied. -/
theorem sizes_packed {limit : Nat} {fragments : List (Fragment Window)} :
    sizes (fragments.take (packedCount limit fragments)) ≤ limit := by
  induction fragments generalizing limit with
  | nil => exact Nat.zero_le _
  | cons fragment more ih =>
    rw [packedCount]
    split
    · exact Nat.zero_le _
    next hfits =>
      have hrest := @ih (limit - fragment.size)
      rw [List.take_succ_cons, sizes_cons]
      omega

/-- **Packing** copies the fragments' bytes to the tail, one fragment after another. -/
theorem Shaped.pack (h : b.Shaped memory) {fragments : List (Fragment Window)}
    (hvalid : ∀ fragment ∈ fragments, memory.Valid fragment.storage)
    (hsome : ∀ fragment ∈ fragments, 0 < fragment.size)
    (hapart : ∀ fragment ∈ fragments, b.Apart fragment.storage)
    (hfits : sizes fragments ≤ b.tailCapacity) :
    ∃ later used, b.pack memory fragments = (later, { b with tailUsed := used })
      ∧ Shaped later { b with tailUsed := used }
      ∧ b.Extends memory later { b with tailUsed := used } [] (contents memory.read fragments).flatten := by
  induction fragments generalizing memory b with
  | nil => exact ⟨memory, b.tailUsed, rfl, h, Extends.refl⟩
  | cons fragment more ih =>
    have hlength := (hvalid fragment (List.mem_cons_self ..)).read_length
    have hpos := hsome fragment (List.mem_cons_self ..)
    have hsize : fragment.size = fragment.storage.length := rfl
    rw [sizes_cons] at hfits
    obtain ⟨written, hfill, hshaped, hextends⟩ := h.fill (memory.read fragment.storage)
      (List.length_pos_iff.mp (by omega)) (by omega)
    have hcapacity : b.tailCapacity - fragment.size ≤ Builder.tailCapacity
        { b with tailUsed := b.tailUsed + (memory.read fragment.storage).length } := by
      unfold Builder.tailCapacity
      dsimp only
      cases b.fragments.getLast? with
      | none => exact Nat.le_of_eq (Nat.zero_sub _)
      | some tail =>
        dsimp only
        omega
    obtain ⟨later, used, hpack, hpacked, hmore⟩ := ih hshaped
      (fun other hmem => (hvalid other (List.mem_cons_of_mem _ hmem)).keeps hextends.keeps)
      (fun other hmem => hsome other (List.mem_cons_of_mem _ hmem))
      (fun other hmem => hextends.apart (hvalid other (List.mem_cons_of_mem _ hmem))
        (hapart other (List.mem_cons_of_mem _ hmem))) (by omega)
    refine ⟨later, used, ?_, hpacked, ?_⟩
    · unfold Builder.pack
      rw [hfill]
      exact hpack
    · have hall := hextends.trans hmore
      rw [contents_frame fun other hmem => hextends.frame _ (hvalid other (List.mem_cons_of_mem _ hmem))
        (hapart other (List.mem_cons_of_mem _ hmem))] at hall
      exact hall

/-- The builder with the fragments of a buffer it has not packed. -/
theorem Sound.appendBuffer (h : b.Sound memory) {other : Buffer Window} (hlies : other.Lies memory)
    (hapart : ∀ fragment ∈ other.fragments, b.Apart fragment.storage) :
    Done memory b (b.appendBuffer memory other) other.fragments (other.content memory) := by
  unfold Builder.appendBuffer
  split
  next e hrefused => exact h.still rfl
  next hadmitted =>
    obtain ⟨hopen, htotal⟩ := ensureAppendable_eq_ok.mp hadmitted
    rw [hlies.size_eq] at htotal
    dsimp only
    have hlimit := @sizes_packed (min packCopyThreshold b.tailCapacity) other.fragments
    have hpackedle := @packedCount_le (min packCopyThreshold b.tailCapacity) other.fragments
    generalize packedCount (min packCopyThreshold b.tailCapacity) other.fragments = packed
      at hlimit hpackedle ⊢
    have hsplit := @backing_split _ other.fragments packed
    have hretained := hlies.sound.retained
    have hdonated : other.retainedBytes - backing (other.fragments.take packed)
        = backing (other.fragments.drop packed) := by omega
    rw [hdonated]
    split
    next => exact h.still rfl
    next hroom =>
      have hmem : ∀ {fragment : Fragment Window}, fragment ∈ other.fragments.take packed →
          fragment ∈ other.fragments := fun hmem => List.mem_of_mem_take hmem
      obtain ⟨later, used, hpack, hshaped, hextends⟩ := h.toShaped.pack
        (fun fragment hfragment => hlies.windows fragment (hmem hfragment))
        (fun fragment hfragment => (hlies.sound.fragments fragment (hmem hfragment)).nonempty)
        (fun fragment hfragment => hapart fragment (hmem hfragment)) (by omega)
      have hcontent : (contents memory.read (other.fragments.take packed)).flatten
          ++ (contents memory.read (other.fragments.drop packed)).flatten = other.content memory := by
        unfold Buffer.content contents
        rw [← List.flatten_append, ← List.map_append, List.take_append_drop]
      rw [hpack]
      dsimp only
      by_cases hall : packed = other.fragments.length
      · rw [if_neg (not_not_intro hall)]
        have hnone : other.fragments.drop packed = [] := List.drop_eq_nil_of_le hall.ge
        have hwhole : (contents memory.read (other.fragments.take packed)).flatten = other.content memory := by
          rw [← hcontent, hnone]
          exact (List.append_nil _).symm
        rw [hwhole] at hextends
        rw [hnone]
        have hdone := h.counted hshaped hextends htotal (congrArg (b.size + ·) hlies.size_eq)
        exact hdone.donating nofun
      · rw [if_pos hall]
        have hrest : other.fragments.drop packed ≠ [] := by
          intro hnone
          have hlength := List.drop_eq_nil_iff.mp hnone
          omega
        have hlength : (other.fragments.drop packed).length = other.fragments.length - packed :=
          List.length_drop
        have hkept : ∀ fragment ∈ other.fragments.drop packed, later.Valid fragment.storage
            ∧ fragment.size ≤ fragment.retainedBytes := by
          intro fragment hfragment
          have hof := List.mem_of_mem_drop hfragment
          exact ⟨(hlies.windows fragment hof).keeps hextends.keeps,
            (hlies.sound.fragments fragment hof).held⟩
        obtain ⟨hspliced, hmore, hsize, _⟩ := hshaped.splice hopen hrest hkept
          (by dsimp only; omega) (by dsimp only; omega)
        have hframed : contents later.read (other.fragments.drop packed)
            = contents memory.read (other.fragments.drop packed) :=
          contents_frame fun fragment hfragment => hextends.frame fragment.storage
            (hlies.windows fragment (List.mem_of_mem_drop hfragment))
            (hapart fragment (List.mem_of_mem_drop hfragment))
        rw [hframed] at hmore
        have hboth := hextends.trans hmore
        rw [hcontent] at hboth
        have hcount : Builder.size (Builder.splice { b with tailUsed := used } (other.fragments.drop packed))
            + other.size = b.size + (other.content memory).length := by
          rw [hsize, hlies.size_eq]
        have hdone := h.counted hspliced hboth htotal hcount
        exact hdone.donating fun _ hfragment => List.mem_of_mem_drop hfragment

/-- Whole leading fragments of a buffer. -/
theorem Sound.appendFragments (h : b.Sound memory) {source : Buffer Window} (hlies : source.Lies memory)
    (count : Nat) : Done memory b ((b.appendFragments source count).1, memory, (b.appendFragments source count).2)
      (source.fragments.take count) (contents memory.read (source.fragments.take count)).flatten := by
  unfold Builder.appendFragments
  by_cases hfinished : b.finished = true
  · rw [if_pos hfinished]
    exact h.still rfl
  rw [if_neg hfinished]
  by_cases hrange : count > source.fragments.length
  · rw [if_pos hrange]
    exact h.still rfl
  rw [if_neg hrange]
  by_cases hzero : count = 0
  · rw [if_pos hzero]
    exact h.still (by rw [hzero]; rfl)
  rw [if_neg hzero]
  have hread : Readable memory.read (source.fragments.take count) := fun fragment hmem =>
    (hlies.windows fragment (List.mem_of_mem_take hmem)).read_length
  dsimp only
  split
  next e hrefused => exact h.still rfl
  next hadmitted =>
    obtain ⟨hopen, htotal⟩ := ensureAppendable_eq_ok.mp hadmitted
    rw [hread.sizes_eq] at htotal ⊢
    split
    next => exact h.still rfl
    next hroom =>
      have hfew := h.few
      have hlength : (source.fragments.take count).length = count := by
        rw [List.length_take]
        omega
      have hsome : source.fragments.take count ≠ [] := by
        intro hnone
        rw [hnone] at hlength
        exact hzero hlength.symm
      have hkept : ∀ fragment ∈ source.fragments.take count, memory.Valid fragment.storage
          ∧ fragment.size ≤ fragment.retainedBytes := fun fragment hmem =>
        ⟨hlies.windows fragment (List.mem_of_mem_take hmem),
          (hlies.sound.fragments fragment (List.mem_of_mem_take hmem)).held⟩
      obtain ⟨hshaped, hextends, hsize, _⟩ := h.toShaped.splice hopen hsome hkept (by omega) (by omega)
      exact h.counted hshaped hextends htotal (congrArg (· + _) hsize)

end Builder

end KwaqueStorage.Bytes
