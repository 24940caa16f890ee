import KwaqueStorage.Bytes.Views

/-!
# Batches for vectored I/O

`export_scatter` hands out a buffer in batches, each bounded in vectors and in bytes, and a cursor says where
the next one goes on. A batch is a front part of what the cursor has left, and holds a byte at least while
there is one.
-/

namespace KwaqueStorage.Bytes

open Lib

variable {memory : Memory} {buffer : Buffer Window}

/-- The bytes a batch holds. -/
def segmentBytes (memory : Memory) (segments : List Window) : List UInt8 :=
  (segments.map memory.read).flatten

/-- What a cursor has left of a buffer. -/
def ScatterCursor.left (memory : Memory) (buffer : Buffer Window) (cursor : ScatterCursor) : List UInt8 :=
  Fragments.rest (contents memory.read (buffer.fragments.drop cursor.fragment)) cursor.offset

/-- A cursor inside a buffer's fragments. -/
structure ScatterCursor.Placed (buffer : Buffer Window) (cursor : ScatterCursor) : Prop where
  fragment : cursor.fragment ≤ buffer.fragments.length
  within : Within (buffer.fragments.drop cursor.fragment) cursor.offset

/-- What the loop of an export comes to from a place within some fragments: it passes `passed` of them and
    exports `fresh`. -/
structure Exports (memory : Memory) (fragments : List (Fragment Window)) (capacity offset budget : Nat)
    (segments : List Window) (passed offset' : Nat) (fresh : List Window) : Prop where
  reached : passed ≤ fragments.length
  within : Within (fragments.drop passed) offset'
  bytes : segmentBytes memory fresh ++ Fragments.rest (contents memory.read (fragments.drop passed)) offset'
    = Fragments.rest (contents memory.read fragments) offset
  vectors : segments.length + fresh.length ≤ capacity
  most : (fresh.map Window.length).sum ≤ budget
  least : segments.length < capacity → 0 < budget → fragments ≠ [] → 0 < (fresh.map Window.length).sum
  parts : ∀ segment ∈ fresh, ∃ fragment ∈ fragments, segment.Part fragment.storage

/-- A loop that stops at once exports nothing. -/
theorem Exports.nothing {fragments : List (Fragment Window)} {capacity offset budget : Nat}
    {segments : List Window} (hwithin : Within fragments offset) (hroom : segments.length ≤ capacity)
    (hstop : ¬(segments.length < capacity ∧ 0 < budget) ∨ fragments = []) :
    Exports memory fragments capacity offset budget segments 0 offset [] where
  reached := Nat.zero_le _
  within := hwithin
  bytes := rfl
  vectors := hroom
  most := Nat.zero_le _
  least hcapacity hbudget hsome := by
    rcases hstop with hstop | hnone
    · exact absurd ⟨hcapacity, hbudget⟩ hstop
    · exact absurd hnone hsome
  parts := nofun

/-- **The loop of an export.** -/
theorem exportLoop_spec {capacity : Nat} {fragments : List (Fragment Window)} {index offset budget bytes : Nat}
    {segments : List Window} (hwithin : Within fragments offset)
    (h : ∀ fragment ∈ fragments, fragment.Sound ∧ memory.Valid fragment.storage)
    (hroom : segments.length ≤ capacity) :
    ∃ passed offset' fresh, exportLoop capacity fragments index offset budget segments bytes
        = .ok (index + passed, offset', segments ++ fresh, bytes + (fresh.map Window.length).sum)
      ∧ Exports memory fragments capacity offset budget segments passed offset' fresh := by
  induction fragments generalizing index offset budget segments bytes with
  | nil =>
    refine ⟨0, offset, [], ?_, Exports.nothing hwithin hroom (.inr rfl)⟩
    rw [exportLoop, List.append_nil]
    rfl
  | cons fragment more ih =>
    obtain ⟨⟨hsound, hvalid⟩, hmore⟩ := List.forall_mem_cons.mp h
    have hlt : offset < fragment.size := hwithin
    have hlength : (memory.read fragment.storage).length = fragment.size := hvalid.read_length
    have hcontents : contents memory.read (fragment :: more)
        = memory.read fragment.storage :: contents memory.read more := rfl
    rw [exportLoop]
    by_cases hgo : segments.length < capacity ∧ 0 < budget
    · rw [if_pos hgo, if_neg (by omega), if_neg (by omega)]
      dsimp only
      have hpart : (Storage.share fragment.storage offset (min (fragment.size - offset) budget)).Part
          fragment.storage := @Fragment.part fragment _ _ (by omega)
      have hread : memory.read (Storage.share fragment.storage offset (min (fragment.size - offset) budget))
          = ((memory.read fragment.storage).drop offset).take (min (fragment.size - offset) budget) :=
        memory.read_shares fragment.storage offset _ (show offset + _ ≤ fragment.size by omega)
      by_cases hends : offset + min (fragment.size - offset) budget = fragment.size
      · rw [if_pos hends]
        obtain ⟨passed, offset', fresh, hloop, hexports⟩ := @ih (index + 1) 0
          (budget - min (fragment.size - offset) budget) (bytes + min (fragment.size - offset) budget)
          (segments ++ [Storage.share fragment.storage offset (min (fragment.size - offset) budget)])
          (Within.zero fun other hmem => (hmore other hmem).1) hmore
          (by rw [List.length_append, List.length_singleton]; omega)
        have hvectors := hexports.vectors
        have hmost := hexports.most
        rw [List.length_append, List.length_singleton] at hvectors
        refine ⟨passed + 1, offset',
          Storage.share fragment.storage offset (min (fragment.size - offset) budget) :: fresh, ?_, ?_⟩
        · rw [hloop, List.append_assoc, Nat.add_assoc, Nat.add_comm 1, List.map_cons, List.sum_cons,
            Nat.add_assoc]
          rfl
        · refine ⟨Nat.succ_le_succ hexports.reached, hexports.within, ?_, ?_, ?_, ?_, ?_⟩
          · have hall : ((memory.read fragment.storage).drop offset).take (min (fragment.size - offset) budget)
                = (memory.read fragment.storage).drop offset := by
              refine List.take_of_length_le ?_
              rw [List.length_drop]
              omega
            rw [hcontents, Fragments.rest_cons (by omega), ← hexports.bytes, ← hall, ← hread,
              List.drop_succ_cons]
            exact List.append_assoc _ _ _
          · rw [List.length_cons]
            omega
          · rw [List.map_cons, List.sum_cons]
            change min (fragment.size - offset) budget + _ ≤ _
            omega
          · intro _ _ _
            rw [List.map_cons, List.sum_cons]
            change 0 < min (fragment.size - offset) budget + _
            omega
          · refine List.forall_mem_cons.mpr ⟨⟨fragment, List.mem_cons_self .., hpart⟩, ?_⟩
            intro segment hmem
            obtain ⟨whole, hof, hinside⟩ := hexports.parts segment hmem
            exact ⟨whole, List.mem_cons_of_mem _ hof, hinside⟩
      · rw [if_neg hends]
        have hspan : min (fragment.size - offset) budget = budget := by omega
        rw [hspan] at hpart hread ⊢
        refine ⟨0, offset + budget, [Storage.share fragment.storage offset budget], rfl,
          Nat.zero_le _, ?_, ?_, ?_, ?_, ?_, ?_⟩
        · change offset + budget < fragment.size
          omega
        · unfold segmentBytes
          rw [List.drop_zero, hcontents, Fragments.rest_cons (by omega), Fragments.rest_cons (by omega),
            List.map_singleton, List.flatten_singleton, hread, ← List.append_assoc, ← List.drop_drop,
            List.take_append_drop]
        · rw [List.length_singleton]
          omega
        · exact Nat.le_of_eq List.sum_singleton
        · intro _ hbudget _
          exact hbudget.trans_eq List.sum_singleton.symm
        · exact List.forall_mem_singleton.mpr ⟨fragment, List.mem_cons_self .., hpart⟩
    · rw [if_neg hgo]
      refine ⟨0, offset, [], ?_, Exports.nothing hwithin hroom (.inl hgo)⟩
      rw [List.append_nil]
      rfl

/-- **A batch** is the front of what the cursor has left: within its caps, with a byte at least while there is
    one, and complete exactly when nothing is left behind it. -/
structure Batched (memory : Memory) (buffer : Buffer Window) (maxVectors maxBytes : Nat)
    (cursor : ScatterCursor) (batch : ScatterBatch) (next : ScatterCursor) : Prop where
  placed : next.Placed buffer
  bytes : segmentBytes memory batch.segments ++ next.left memory buffer = cursor.left memory buffer
  vectors : batch.segments.length ≤ min maxVectors maxScatterVectors
  most : batch.bytes ≤ maxBytes
  count : batch.bytes = (segmentBytes memory batch.segments).length
  least : cursor.left memory buffer ≠ [] → segmentBytes memory batch.segments ≠ []
  complete : batch.complete = true ↔ next.left memory buffer = []
  parts : ∀ segment ∈ batch.segments, ∃ fragment ∈ buffer.fragments, segment.Part fragment.storage

/-- A cursor inside a buffer has nothing left exactly at the end. -/
theorem ScatterCursor.Placed.left_eq_nil {cursor : ScatterCursor} (h : cursor.Placed buffer)
    (hlies : buffer.Lies memory) :
    cursor.left memory buffer = [] ↔ cursor.fragment = buffer.fragments.length := by
  have hwithin := h.within
  have hle := h.fragment
  unfold ScatterCursor.left
  cases hdrop : buffer.fragments.drop cursor.fragment with
  | nil =>
    have hend := List.drop_eq_nil_iff.mp hdrop
    exact iff_of_true List.drop_nil (by omega)
  | cons fragment more =>
    rw [hdrop] at hwithin
    have hmem : fragment ∈ buffer.fragments := List.mem_of_mem_drop (hdrop ▸ List.mem_cons_self ..)
    have hlength : (memory.read fragment.storage).length = fragment.size := hlies.readable fragment hmem
    have hlt : cursor.offset < fragment.size := hwithin
    have hbefore : cursor.fragment < buffer.fragments.length := by
      have hcount := congrArg List.length hdrop
      rw [List.length_drop, List.length_cons] at hcount
      omega
    refine iff_of_false ?_ (by omega)
    intro hnone
    have hcontents : contents memory.read (fragment :: more)
        = memory.read fragment.storage :: contents memory.read more := rfl
    rw [hcontents, Fragments.rest_cons (by omega)] at hnone
    have hempty := congrArg List.length (List.append_eq_nil_iff.mp hnone).1
    rw [List.length_drop, List.length_nil] at hempty
    omega

theorem segmentBytes_length {segments : List Window} (h : ∀ segment ∈ segments, memory.Valid segment) :
    (segmentBytes memory segments).length = (segments.map Window.length).sum := by
  unfold segmentBytes
  rw [List.length_flatten, List.map_map]
  exact congrArg List.sum (List.map_congr_left fun segment hmem => (h segment hmem).read_length)

/-- An export from a cursor inside the buffer that succeeds gives a batch, and binds the cursor. -/
theorem Buffer.Lies.exportScatter (h : buffer.Lies memory) {slot maxVectors maxBytes : Nat}
    {cursor next : ScatterCursor} {batch : ScatterBatch} (hplaced : cursor.Placed buffer)
    (hexport : buffer.exportScatter slot maxVectors maxBytes cursor = .ok (batch, next)) :
    Batched memory buffer maxVectors maxBytes cursor batch next
      ∧ next.owner = some slot ∧ next.generation = buffer.generation
      ∧ buffer.generation ≠ maxGeneration := by
  unfold Buffer.exportScatter at hexport
  split at hexport
  next => cases hexport
  next hcaps =>
    split at hexport
    next => cases hexport
    next =>
      split at hexport
      next => cases hexport
      next hgeneration =>
        split at hexport
        next => cases hexport
        next =>
          obtain ⟨passed, offset', fresh, hloop, hexports⟩ := @exportLoop_spec memory
            (min maxVectors maxScatterVectors) _ cursor.fragment cursor.offset maxBytes 0 [] hplaced.within
            (fun fragment hmem => ⟨h.sound.fragments fragment (List.mem_of_mem_drop hmem),
              h.windows fragment (List.mem_of_mem_drop hmem)⟩) (Nat.zero_le _)
          rw [hloop] at hexport
          simp only [Except.ok.injEq, Prod.mk.injEq, List.nil_append, Nat.zero_add] at hexport
          obtain ⟨rfl, rfl⟩ := hexport
          have hpassed := hexports.reached
          have hwithin := hexports.within
          have hbytes := hexports.bytes
          rw [List.length_drop] at hpassed
          rw [List.drop_drop] at hwithin hbytes
          have hparts : ∀ segment ∈ fresh, ∃ fragment ∈ buffer.fragments, segment.Part fragment.storage := by
            intro segment hmem
            obtain ⟨fragment, hof, hinside⟩ := hexports.parts segment hmem
            exact ⟨fragment, List.mem_of_mem_drop hof, hinside⟩
          have hvalid : ∀ segment ∈ fresh, memory.Valid segment := by
            intro segment hmem
            obtain ⟨fragment, hof, hinside⟩ := hparts segment hmem
            exact hinside.valid (h.windows fragment hof)
          have hle := hplaced.fragment
          have hnext : ScatterCursor.Placed buffer
              ⟨some slot, buffer.generation, cursor.fragment + passed, offset'⟩ := ⟨by dsimp only; omega, hwithin⟩
          refine ⟨⟨hnext, hbytes, ?_, hexports.most, (segmentBytes_length hvalid).symm, ?_, ?_, hparts⟩, rfl, rfl,
            hgeneration⟩
          · have hvectors := hexports.vectors
            rw [List.length_nil, Nat.zero_add] at hvectors
            exact hvectors
          · intro hleft hnone
            have hsome : buffer.fragments.drop cursor.fragment ≠ [] := by
              intro hend
              exact hleft ((hplaced.left_eq_nil h).mpr (Nat.le_antisymm hle (List.drop_eq_nil_iff.mp hend)))
            have hpos := hexports.least
              (Nat.lt_min.mpr ⟨Nat.pos_of_ne_zero fun hzero => hcaps (.inl hzero), by decide⟩)
              (Nat.pos_of_ne_zero fun hzero => hcaps (.inr hzero)) hsome
            rw [← segmentBytes_length hvalid, hnone] at hpos
            exact absurd hpos (Nat.lt_irrefl _)
          · rw [hnext.left_eq_nil h]
            exact decide_eq_true_iff

end KwaqueStorage.Bytes
