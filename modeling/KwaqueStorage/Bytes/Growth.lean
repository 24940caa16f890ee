import KwaqueStorage.Bytes.Builder

/-!
# What a builder's steps do

A builder is the bytes it presents: its fragments, the tail up to what was written. Beyond that point the tail
is the builder's **slack**, the only place it ever writes. A window is *apart* from a builder if it ends before
the slack, or lies in another block; such a window never changes.

Each step of the builder extends what it presents by some bytes, keeps every window that is apart, and moves its
slack only forwards in its block or to a block that nobody has seen.
-/

namespace KwaqueStorage.Bytes

open Lib

/-! ## The size of an allocation -/

/-- Sizes of four classes to a power of two, from 8 bytes to 16 KiB. -/
theorem le_pooled {size log : Nat} (hlow : 3 ≤ log) (hhigh : log ≤ 14) (hfrom : 2 ^ log ≤ size)
    (hto : size < 2 ^ (log + 1)) :
    let index := ((log <<< 2) - 3) + ((size - 1) >>> (log - 2))
    size ≤ ((4 ||| (index &&& 3)) <<< (index >>> 2)) >>> 2 := by
  -- the class is the number of quarters of the power of two that the size begins
  obtain ⟨quarters, hquarters⟩ : ∃ quarters, (size - 1) / 2 ^ (log - 2) = quarters := ⟨_, rfl⟩
  have hpos : 0 < 2 ^ (log - 2) := by positivity
  dsimp only
  rw [Nat.shiftRight_eq_div_pow (size - 1), hquarters]
  have hle : size ≤ (quarters + 1) * 2 ^ (log - 2) := by
    have hlt : size - 1 < (quarters + 1) * 2 ^ (log - 2) :=
      (Nat.div_lt_iff_lt_mul hpos).mp (hquarters.trans_lt (Nat.lt_succ_self quarters))
    exact Nat.le_of_pred_lt hlt
  have hleast : 3 ≤ quarters := by
    rw [← hquarters, Nat.le_div_iff_mul_le hpos]
    interval_cases log <;> omega
  have hmost : quarters < 8 := by
    rw [← hquarters, Nat.div_lt_iff_lt_mul hpos]
    interval_cases log <;> omega
  interval_cases log <;> interval_cases quarters <;> simpa using hle

/-- The allocator serves no less than what is asked for. -/
theorem le_servedAllocationSize (size : Nat) : size ≤ servedAllocationSize size := by
  unfold servedAllocationSize
  by_cases hzero : size = 0
  · rw [if_pos hzero, hzero]
  · rw [if_neg hzero]
    dsimp only
    have hsize : size ≤ max size 8 := Nat.le_max_left _ _
    have hleast : 8 ≤ max size 8 := Nat.le_max_right _ _
    generalize max size 8 = rounded at hsize hleast
    refine hsize.trans ?_
    have hfrom : 2 ^ Nat.log2 rounded ≤ rounded := Nat.log2_self_le (by omega)
    have hto : rounded < 2 ^ (Nat.log2 rounded + 1) := Nat.lt_log2_self
    split
    next hlarge =>
      split
      next => exact Nat.le_refl _
      next =>
        rw [Nat.shiftLeft_eq, Nat.shiftLeft_eq, Nat.one_mul, ← Nat.pow_succ]
        exact hto.le
    next hsmall =>
      have hlow : 3 ≤ Nat.log2 rounded := by
        by_contra hless
        have hpow : 2 ^ (Nat.log2 rounded + 1) ≤ 2 ^ 3 := Nat.pow_le_pow_right (by decide) (by omega)
        omega
      have hhigh : Nat.log2 rounded ≤ 14 := by
        by_contra hmore
        have hpow : 2 ^ 15 ≤ 2 ^ Nat.log2 rounded := Nat.pow_le_pow_right (by decide) (by omega)
        omega
      have hserved := le_pooled hlow hhigh hfrom hto
      dsimp only at hserved
      split
      next => omega
      next => exact hserved

/-- A configuration that `validate` accepts. -/
structure Config.Valid (config : Config) : Prop where
  initial : 0 < config.initialFragmentBytes
  several : 0 < config.maxFragments
  few : config.maxFragments ≤ maxBufferFragments
  ramp : config.initialFragmentBytes ≤ config.maxFragmentBytes
  total : config.maxFragmentBytes ≤ config.maxTotalBytes
  contiguous : config.maxFragmentBytes ≤ maximumContiguousAllocationBytes
  retained : config.maxTotalBytes ≤ config.maxRetainedBytes
  bounded : config.maxRetainedBytes ≤ maxBufferBytes

theorem Config.validate_eq_ok {config : Config} {u : Unit} : config.validate = .ok u ↔ config.Valid := by
  unfold Config.validate
  rw [require_eq_ok]
  constructor
  · intro h
    constructor <;> omega
  · rintro ⟨_, _, _, _, _, _, _, _⟩
    omega

/-- **The next allocation** is one byte at least, no more than a fragment may have, and what is requested if
    a fragment may have that. -/
theorem Builder.nextAllocation_spec {b : Builder} (h : b.config.Valid) (requested : Nat) :
    0 < b.nextAllocation requested ∧ b.nextAllocation requested ≤ b.config.maxFragmentBytes
      ∧ min requested b.config.maxFragmentBytes ≤ b.nextAllocation requested := by
  have hinitial := h.initial
  have hramp := h.ramp
  unfold Builder.nextAllocation
  dsimp only
  have hcandidate : 0 < if b.lastAllocation ≠ 0 then
      if b.lastAllocation > b.config.maxFragmentBytes - b.lastAllocation / 2 then b.config.maxFragmentBytes
      else b.lastAllocation + b.lastAllocation / 2
    else b.config.initialFragmentBytes := by
    split <;> [split; skip] <;> omega
  generalize (if b.lastAllocation ≠ 0 then
      if b.lastAllocation > b.config.maxFragmentBytes - b.lastAllocation / 2 then b.config.maxFragmentBytes
      else b.lastAllocation + b.lastAllocation / 2
    else b.config.initialFragmentBytes) = candidate at hcandidate
  have hserved := le_servedAllocationSize
    (min (max (min candidate b.config.maxFragmentBytes) requested) b.config.maxFragmentBytes)
  split
  next hfits => omega
  next => omega

/-! ## Slack -/

namespace Builder

/-- Where the builder may write: in which block, and from where on. -/
def slack (b : Builder) : Option (Nat × Nat) :=
  match b.fragments.getLast? with
  | none => none
  | some tail =>
    if b.tailUsed < tail.size then some (tail.storage.block, tail.storage.start + b.tailUsed) else none

/-- A window that ends before the slack, or lies in another block. -/
def Apart (b : Builder) (window : Window) : Prop :=
  ∀ block start, b.slack = some (block, start) → window.block = block → window.start + window.length ≤ start

/-- The bytes a builder presents. -/
def content (memory : Memory) (b : Builder) : List UInt8 := (contents memory.read b.presented).flatten

/-- What is true of a builder at every moment, also while it appends: how far it has counted the bytes is
    left out. -/
structure Shaped (memory : Memory) (b : Builder) : Prop where
  config : b.config.Valid
  windows : ∀ fragment ∈ b.fragments, memory.Valid fragment.storage ∧ fragment.size ≤ fragment.retainedBytes
  tail : ∀ tail, b.fragments.getLast? = some tail → b.tailUsed ≤ tail.size
  blank : b.fragments = [] → b.tailUsed = 0
  retained : b.retainedBytes = backing b.fragments
  backed : b.retainedBytes ≤ b.config.maxRetainedBytes
  few : b.fragments.length ≤ b.config.maxFragments
  own : ∀ fragment ∈ b.presented, b.Apart fragment.storage
  closed : b.finished = true → b.fragments = []

/-- What is true of a builder between two operations. -/
structure Sound (memory : Memory) (b : Builder) : Prop extends Shaped memory b where
  size : b.size = sizes b.presented
  total : b.size ≤ b.config.maxTotalBytes

/-- One builder extends another by some bytes; `donated` are the fragments it took over. -/
structure Extends (memory : Memory) (b : Builder) (later : Memory) (b' : Builder)
    (donated : List (Fragment Window)) (bytes : List UInt8) : Prop where
  keeps : memory.Keeps later
  frame : ∀ window, memory.Valid window → b.Apart window → later.read window = memory.read window
  slack : ∀ block start, b'.slack = some (block, start) →
    (∃ from_, b.slack = some (block, from_) ∧ from_ ≤ start) ∨ memory.length ≤ block
  origin : ∀ fragment ∈ b'.presented, fragment ∈ b.presented ∨ fragment ∈ donated
    ∨ (∃ start, b.slack = some (fragment.storage.block, start)) ∨ memory.length ≤ fragment.storage.block
  content : b'.content later = b.content memory ++ bytes
  config : b'.config = b.config

section Parts

variable {b : Builder} {front : List (Fragment Window)} {tail : Fragment Window}

theorem presented_nil (h : b.fragments = []) : b.presented = [] := by
  unfold presented
  rw [h]
  rfl

theorem getLast_of_concat (h : b.fragments = front ++ [tail]) : b.fragments.getLast? = some tail := by
  rw [h, List.getLast?_concat]

theorem presented_concat (h : b.fragments = front ++ [tail]) :
    b.presented = front ++ [tail.share 0 b.tailUsed] := by
  unfold presented
  rw [getLast_of_concat h, h, List.dropLast_concat]

theorem tailCapacity_concat (h : b.fragments = front ++ [tail]) :
    b.tailCapacity = tail.size - b.tailUsed := by
  unfold tailCapacity
  rw [getLast_of_concat h]

theorem slack_concat (h : b.fragments = front ++ [tail]) : b.slack = if b.tailUsed < tail.size
    then some (tail.storage.block, tail.storage.start + b.tailUsed) else none := by
  unfold slack
  rw [getLast_of_concat h]

theorem slack_nil (h : b.fragments = []) : b.slack = none := by
  unfold slack
  rw [h]
  rfl

theorem apart_of_none {window : Window} (h : b.slack = none) : b.Apart window := by
  intro block start hslack
  rw [h] at hslack
  cases hslack

theorem share_size {fragment : Fragment Window} : fragment.share 0 fragment.size = fragment := rfl

/-- A tail that is full is presented as it is. -/
theorem presented_of_full (h : b.fragments = front ++ [tail]) (hfull : b.tailUsed = tail.size) :
    b.presented = b.fragments := by
  rw [presented_concat h, hfull, share_size, h]

end Parts

section Facts

variable {memory later last : Memory} {b b' b'' : Builder}

/-- A builder has no fragments, or some and a tail. -/
theorem fragments_cases (b : Builder) :
    b.fragments = [] ∨ ∃ front tail, b.fragments = front ++ [tail] := by
  rcases List.eq_nil_or_concat b.fragments with hnil | ⟨front, tail, hconcat⟩
  · exact .inl hnil
  · exact .inr ⟨front, tail, by rw [hconcat, List.concat_eq_append]⟩

theorem presented_length : b.presented.length = b.fragments.length := by
  rcases b.fragments_cases with hnil | ⟨front, tail, hconcat⟩
  · rw [presented_nil hnil, hnil]
  · rw [presented_concat hconcat, hconcat, List.length_append, List.length_append, List.length_singleton,
      List.length_singleton]

theorem presented_backing : backing b.presented = backing b.fragments := by
  rcases b.fragments_cases with hnil | ⟨front, tail, hconcat⟩
  · rw [presented_nil hnil, hnil]
  · rw [presented_concat hconcat, hconcat, backing_append, backing_append]
    rfl

theorem Shaped.presented_windows (h : b.Shaped memory) : ∀ fragment ∈ b.presented,
    memory.Valid fragment.storage ∧ fragment.size ≤ fragment.retainedBytes := by
  rcases b.fragments_cases with hnil | ⟨front, tail, hconcat⟩
  · rw [presented_nil hnil]
    exact nofun
  · have hwindows := h.windows
    have hused := h.tail tail (getLast_of_concat hconcat)
    rw [hconcat] at hwindows
    obtain ⟨hvalid, hheld⟩ := hwindows tail List.mem_concat_self
    rw [presented_concat hconcat]
    intro fragment hmem
    rcases List.mem_append.mp hmem with hfront | htail
    · exact hwindows fragment (List.mem_append_left _ hfront)
    · obtain rfl := List.mem_singleton.mp htail
      exact ⟨hvalid.share (by rw [Nat.zero_add]; exact hused), hused.trans hheld⟩

theorem Shaped.readable (h : b.Shaped memory) : Readable memory.read b.presented :=
  fun fragment hmem => (h.presented_windows fragment hmem).1.read_length

/-- The sizes of what a builder presents are the number of bytes it presents. -/
theorem Shaped.sizes_eq (h : b.Shaped memory) : sizes b.presented = (b.content memory).length :=
  h.readable.sizes_eq

theorem Extends.refl : b.Extends memory memory b [] [] where
  keeps := Memory.Keeps.refl
  frame _ _ _ := rfl
  slack _ start hslack := .inl ⟨start, hslack, Nat.le_refl _⟩
  origin _ hmem := .inl hmem
  content := (List.append_nil _).symm
  config := rfl

/-- What is apart from a builder stays apart from one that extends it. -/
theorem Extends.apart {donated : List (Fragment Window)} {bytes : List UInt8} {window : Window}
    (h : b.Extends memory later b' donated bytes) (hvalid : memory.Valid window) (hapart : b.Apart window) :
    b'.Apart window := by
  intro block start hslack hblock
  rcases h.slack block start hslack with ⟨from_, hfrom, hle⟩ | hfresh
  · exact (hapart block from_ hfrom hblock).trans hle
  · have hlt := hvalid.block
    omega

theorem Extends.trans {first second : List (Fragment Window)} {bytes more : List UInt8}
    (h : b.Extends memory later b' first bytes) (h' : b'.Extends later last b'' second more) :
    b.Extends memory last b'' (first ++ second) (bytes ++ more) where
  keeps := h.keeps.trans h'.keeps
  frame window hvalid hapart :=
    (h'.frame window (hvalid.keeps h.keeps) (h.apart hvalid hapart)).trans (h.frame window hvalid hapart)
  slack block start hslack := by
    rcases h'.slack block start hslack with ⟨from_, hfrom, hle⟩ | hfresh
    · rcases h.slack block from_ hfrom with ⟨earlier, hearlier, hle'⟩ | hfresh
      · exact .inl ⟨earlier, hearlier, hle'.trans hle⟩
      · exact .inr hfresh
    · exact .inr (h.keeps.length.trans hfresh)
  origin fragment hmem := by
    rcases h'.origin fragment hmem with hold | hdonated | ⟨start, hslack⟩ | hfresh
    · rcases h.origin fragment hold with hold | hdonated | hslack | hfresh
      · exact .inl hold
      · exact .inr (.inl (List.mem_append_left _ hdonated))
      · exact .inr (.inr (.inl hslack))
      · exact .inr (.inr (.inr hfresh))
    · exact .inr (.inl (List.mem_append_right _ hdonated))
    · rcases h.slack _ start hslack with ⟨from_, hfrom, _⟩ | hfresh
      · exact .inr (.inr (.inl ⟨from_, hfrom⟩))
      · exact .inr (.inr (.inr hfresh))
    · exact .inr (.inr (.inr (h.keeps.length.trans hfresh)))
  content := by rw [h'.content, h.content, List.append_assoc]
  config := h'.config.trans h.config

/-- What some windows hold does not change where each is apart. -/
theorem contents_frame {fragments : List (Fragment Window)}
    (h : ∀ fragment ∈ fragments, later.read fragment.storage = memory.read fragment.storage) :
    contents later.read fragments = contents memory.read fragments :=
  List.map_congr_left h

theorem content_append {front : List (Fragment Window)} {tail : Fragment Window} :
    (contents memory.read (front ++ [tail])).flatten
      = (contents memory.read front).flatten ++ memory.read tail.storage := by
  unfold contents
  rw [List.map_append, List.flatten_append, List.map_singleton, List.flatten_singleton]

/-- A memory in which every window that is apart is the same: the builder presents what it did. -/
theorem Shaped.extends_memory (h : b.Shaped memory) (hkeeps : memory.Keeps later)
    (hframe : ∀ window, memory.Valid window → b.Apart window → later.read window = memory.read window) :
    b.Extends memory later b [] [] where
  keeps := hkeeps
  frame := hframe
  slack _ start hslack := .inl ⟨start, hslack, Nat.le_refl _⟩
  origin _ hmem := .inl hmem
  content := by
    unfold content
    rw [List.append_nil, contents_frame fun fragment hmem =>
      hframe fragment.storage (h.presented_windows fragment hmem).1 (h.own fragment hmem)]
  config := rfl

theorem Shaped.keeps (h : b.Shaped memory) (hkeeps : memory.Keeps later) : b.Shaped later :=
  { h with windows := fun fragment hmem =>
      ⟨(h.windows fragment hmem).1.keeps hkeeps, (h.windows fragment hmem).2⟩ }

/-! ## A new tail -/

/-- **A fragment of a fresh block** behind the tail, written so far. -/
theorem Shaped.push (h : b.Shaped memory) (bytes : List UInt8) (used allocation : Nat)
    (hopen : b.finished = false) (hused : used ≤ bytes.length)
    (hroom : b.fragments.length < b.config.maxFragments)
    (hbacked : b.retainedBytes + bytes.length ≤ b.config.maxRetainedBytes) :
    let pushed := { b.pushFragment ⟨⟨memory.length, 0, bytes.length⟩, bytes.length⟩ used with
      lastAllocation := allocation }
    pushed.Shaped (memory.allocate bytes)
      ∧ b.Extends memory (memory.allocate bytes) pushed [] (bytes.take used) := by
  intro pushed
  have hfragments : pushed.fragments
      = b.presented ++ [⟨⟨memory.length, 0, bytes.length⟩, bytes.length⟩] := rfl
  have hpresented : pushed.presented = b.presented ++ [⟨⟨memory.length, 0, used⟩, bytes.length⟩] :=
    presented_concat hfragments
  have hslack : pushed.slack = if used < bytes.length then some (memory.length, 0 + used) else none :=
    slack_concat hfragments
  have hfresh : ∀ block start, pushed.slack = some (block, start) → block = memory.length ∧ start = used := by
    intro block start hsome
    rw [hslack] at hsome
    obtain ⟨_, ⟨⟩⟩ := Option.ite_none_right_eq_some.mp hsome
    exact ⟨rfl, Nat.zero_add _⟩
  constructor
  · refine ⟨h.config, ?_, ?_, ?_, ?_, hbacked, ?_, ?_, ?_⟩
    · intro fragment hmem
      rcases List.mem_append.mp (hfragments ▸ hmem) with hold | hnew
      · obtain ⟨hvalid, hheld⟩ := h.presented_windows fragment hold
        exact ⟨hvalid.keeps Memory.keeps_allocate, hheld⟩
      · obtain rfl := List.mem_singleton.mp hnew
        exact ⟨Memory.valid_allocate, Nat.le_refl _⟩
    · intro tail htail
      rw [getLast_of_concat hfragments] at htail
      cases htail
      exact hused
    · intro hnone
      rw [hfragments] at hnone
      exact absurd hnone (List.append_ne_nil_of_right_ne_nil _ (List.cons_ne_nil _ _))
    · rw [hfragments, backing_append, presented_backing, ← h.retained]
      rfl
    · rw [hfragments, List.length_append, presented_length]
      exact hroom
    · intro fragment hmem block start hsome hblock
      obtain ⟨rfl, rfl⟩ := hfresh block start hsome
      rcases List.mem_append.mp (hpresented ▸ hmem) with hold | hnew
      · have hlt := (h.presented_windows fragment hold).1.block
        omega
      · obtain rfl := List.mem_singleton.mp hnew
        exact (Nat.zero_add _).le
    · intro hfinished
      exact absurd (hopen.symm.trans hfinished) Bool.false_ne_true
  · refine ⟨Memory.keeps_allocate, fun window hvalid _ => Memory.read_allocate_of_valid hvalid, ?_, ?_, ?_,
      rfl⟩
    · intro block start hsome
      exact .inr (hfresh block start hsome).1.ge
    · intro fragment hmem
      rcases List.mem_append.mp (hpresented ▸ hmem) with hold | hnew
      · exact .inl hold
      · obtain rfl := List.mem_singleton.mp hnew
        exact .inr (.inr (.inr (Nat.le_refl _)))
    · have hread : (memory.allocate bytes).read ⟨memory.length, 0, used⟩ = bytes.take used := by
        have hpart := Memory.read_shares (memory.allocate bytes) ⟨memory.length, 0, bytes.length⟩ 0 used
          (by rw [Nat.zero_add]; exact hused)
        rw [Memory.read_allocate, List.drop_zero] at hpart
        exact hpart
      unfold content
      rw [hpresented, content_append, hread, contents_frame fun fragment hmem =>
        Memory.read_allocate_of_valid (h.presented_windows fragment hmem).1]

/-! ## Writing to the tail -/

/-- **Bytes that fit in the tail** are written to the slack. -/
theorem Shaped.fill (h : b.Shaped memory) (bytes : List UInt8) (hsome : bytes ≠ [])
    (hfits : bytes.length ≤ b.tailCapacity) :
    ∃ later, b.fill memory bytes = (later, { b with tailUsed := b.tailUsed + bytes.length })
      ∧ Shaped later { b with tailUsed := b.tailUsed + bytes.length }
      ∧ b.Extends memory later { b with tailUsed := b.tailUsed + bytes.length } [] bytes := by
  have hpos : 0 < bytes.length := List.length_pos_iff.mpr hsome
  rcases b.fragments_cases with hnil | ⟨front, tail, hconcat⟩
  · unfold tailCapacity at hfits
    rw [hnil] at hfits
    change bytes.length ≤ 0 at hfits
    omega
  rw [tailCapacity_concat hconcat] at hfits
  have hsize : tail.size = tail.storage.length := rfl
  obtain ⟨hvalid, _⟩ := h.windows tail (hconcat ▸ List.mem_concat_self)
  have hblock := hvalid.fits
  have hroom : tail.storage.start + b.tailUsed + bytes.length
      ≤ (memory.blockAt tail.storage.block).length := by omega
  have hslack : b.slack = some (tail.storage.block, tail.storage.start + b.tailUsed) := by
    rw [slack_concat hconcat, if_pos (by omega)]
  have hpresented : b.presented = front ++ [tail.share 0 b.tailUsed] := presented_concat hconcat
  have hpresented' : ({ b with tailUsed := b.tailUsed + bytes.length } : Builder).presented
      = front ++ [tail.share 0 (b.tailUsed + bytes.length)] := by
    exact presented_concat (b := { b with tailUsed := b.tailUsed + bytes.length }) hconcat
  have hslack' : ({ b with tailUsed := b.tailUsed + bytes.length } : Builder).slack
      = if b.tailUsed + bytes.length < tail.size then some (tail.storage.block,
        tail.storage.start + (b.tailUsed + bytes.length)) else none := by
    exact slack_concat (b := { b with tailUsed := b.tailUsed + bytes.length }) hconcat
  have hfront : ∀ fragment ∈ front, fragment ∈ b.presented := by
    rw [hpresented]
    exact fun fragment hmem => List.mem_append_left _ hmem
  have hframe : ∀ window, memory.Valid window → b.Apart window →
      (memory.write tail.storage.block (tail.storage.start + b.tailUsed) bytes).read window
        = memory.read window :=
    fun window hwindow hapart => Memory.read_write_of_apart hroom hwindow (hapart _ _ hslack)
  have hextends : b.Extends memory
      (memory.write tail.storage.block (tail.storage.start + b.tailUsed) bytes)
      { b with tailUsed := b.tailUsed + bytes.length } [] bytes := by
    refine ⟨Memory.keeps_write hroom, hframe, ?_, ?_, ?_, rfl⟩
    · intro block start hsome
      rw [hslack'] at hsome
      obtain ⟨_, ⟨⟩⟩ := Option.ite_none_right_eq_some.mp hsome
      exact .inl ⟨_, hslack, by omega⟩
    · intro fragment hmem
      rcases List.mem_append.mp (hpresented' ▸ hmem) with hold | hnew
      · exact .inl (hfront fragment hold)
      · obtain rfl := List.mem_singleton.mp hnew
        exact .inr (.inr (.inl ⟨_, hslack⟩))
    · have hused := h.presented_windows _ (hpresented ▸ List.mem_concat_self)
      have hown := h.own _ (hpresented ▸ List.mem_concat_self)
      unfold content
      rw [hpresented, hpresented', content_append, content_append, contents_frame fun fragment hmem =>
        hframe _ (h.presented_windows fragment (hfront fragment hmem)).1
          (h.own fragment (hfront fragment hmem)), List.append_assoc]
      congr 1
      -- what was there before, and what was just written behind it
      change Memory.read _ ⟨tail.storage.block, tail.storage.start + 0, b.tailUsed + bytes.length⟩ = _
      rw [Memory.read_split]
      congr 1
      · exact hframe _ hused.1 hown
      · exact Memory.read_write hvalid.block hroom
  refine ⟨_, ?_, ?_, hextends⟩
  · unfold Builder.fill
    rw [getLast_of_concat hconcat]
  · refine ⟨h.config, ?_, ?_, ?_, h.retained, h.backed, h.few, ?_, h.closed⟩
    · intro fragment hmem
      obtain ⟨hwindow, hheld⟩ := h.windows fragment hmem
      exact ⟨hwindow.keeps hextends.keeps, hheld⟩
    · intro last hlast
      have hsame : some tail = some last := (getLast_of_concat hconcat).symm.trans hlast
      cases hsame
      change b.tailUsed + bytes.length ≤ _
      omega
    · intro hnone
      exact absurd (hconcat.symm.trans hnone) (List.append_ne_nil_of_right_ne_nil _ (List.cons_ne_nil _ _))
    · intro fragment hmem
      rcases List.mem_append.mp (hpresented' ▸ hmem) with hold | hnew
      · exact hextends.apart (h.presented_windows fragment (hfront fragment hold)).1
          (h.own fragment (hfront fragment hold))
      · obtain rfl := List.mem_singleton.mp hnew
        intro block start hsome _
        rw [hslack'] at hsome
        obtain ⟨_, ⟨⟩⟩ := Option.ite_none_right_eq_some.mp hsome
        exact Nat.le_refl _

/-! ## Taking over fragments -/

theorem Shaped.sealTail_eq (h : b.Shaped memory) :
    b.sealTail = { b with fragments := b.presented, tailUsed := b.tailUsed } := by
  rcases b.fragments_cases with hnil | ⟨front, tail, hconcat⟩
  · unfold sealTail
    rw [presented_nil hnil, hnil]
    exact congrArg (fun fragments => { b with fragments }) hnil
  · have hfits := h.tail tail (getLast_of_concat hconcat)
    unfold sealTail
    rw [getLast_of_concat hconcat, presented_concat hconcat]
    dsimp only
    rw [hconcat, List.dropLast_concat]
    by_cases hless : b.tailUsed < tail.size
    · rw [if_pos hless]
      rfl
    · have hfull : b.tailUsed = tail.size := by omega
      rw [if_neg hless, hfull, share_size]

/-- **Whole fragments** behind the sealed tail leave no slack. -/
theorem Shaped.splice (h : b.Shaped memory) {donated : List (Fragment Window)}
    (hopen : b.finished = false) (hsome : donated ≠ [])
    (hdonated : ∀ fragment ∈ donated, memory.Valid fragment.storage
      ∧ fragment.size ≤ fragment.retainedBytes)
    (hroom : b.fragments.length + donated.length ≤ b.config.maxFragments)
    (hbacked : b.retainedBytes + backing donated ≤ b.config.maxRetainedBytes) :
    Shaped memory { b.splice donated with retainedBytes := b.retainedBytes + backing donated }
      ∧ b.Extends memory memory { b.splice donated with retainedBytes := b.retainedBytes + backing donated }
        donated (contents memory.read donated).flatten
      ∧ (b.splice donated).size = b.size ∧ (b.splice donated).finished = b.finished := by
  obtain ⟨front, tail, hconcat⟩ : ∃ front tail, donated = front ++ [tail] := by
    rcases List.eq_nil_or_concat donated with hnil | ⟨front, tail, hconcat⟩
    · exact absurd hnil hsome
    · exact ⟨front, tail, by rw [hconcat, List.concat_eq_append]⟩
  have hsplice : b.splice donated
      = { b with fragments := b.presented ++ donated, tailUsed := tail.size } := by
    unfold Builder.splice
    rw [h.sealTail_eq]
    dsimp only
    rw [hconcat, ← List.append_assoc, List.getLast?_concat]
  rw [hsplice]
  have hfragments : ({ b with
      fragments := b.presented ++ donated, tailUsed := tail.size,
      retainedBytes := b.retainedBytes + backing donated } : Builder).fragments
      = (b.presented ++ front) ++ [tail] := by
    dsimp only
    rw [hconcat, List.append_assoc]
  have hpresented : ({ b with
      fragments := b.presented ++ donated, tailUsed := tail.size,
      retainedBytes := b.retainedBytes + backing donated } : Builder).presented
      = b.presented ++ donated := presented_of_full hfragments rfl
  have hslack : ({ b with
      fragments := b.presented ++ donated, tailUsed := tail.size,
      retainedBytes := b.retainedBytes + backing donated } : Builder).slack = none := by
    rw [slack_concat hfragments, if_neg (Nat.lt_irrefl _)]
  refine ⟨⟨h.config, ?_, ?_, ?_, ?_, hbacked, ?_, ?_, ?_⟩, ⟨Memory.Keeps.refl, fun _ _ _ => rfl, ?_, ?_, ?_,
    rfl⟩, rfl, rfl⟩
  · intro fragment hmem
    rcases List.mem_append.mp hmem with hold | hnew
    · exact h.presented_windows fragment hold
    · exact hdonated fragment hnew
  · intro last hlast
    rw [getLast_of_concat hfragments] at hlast
    cases hlast
    exact Nat.le_refl _
  · intro hnone
    exact absurd (hfragments.symm.trans hnone)
      (List.append_ne_nil_of_right_ne_nil _ (List.cons_ne_nil _ _))
  · change b.retainedBytes + backing donated = backing (b.presented ++ donated)
    rw [backing_append, presented_backing, h.retained]
  · change (b.presented ++ donated).length ≤ _
    rw [List.length_append, presented_length]
    exact hroom
  · exact fun _ _ => apart_of_none hslack
  · intro hfinished
    exact absurd (hopen.symm.trans hfinished) Bool.false_ne_true
  · intro block start hslacked
    rw [hslack] at hslacked
    cases hslacked
  · intro fragment hmem
    rw [hpresented] at hmem
    rcases List.mem_append.mp hmem with hold | hnew
    · exact .inl hold
    · exact .inr (.inl hnew)
  · unfold content
    rw [hpresented]
    unfold contents
    rw [List.map_append, List.flatten_append]

end Facts

end Builder

end KwaqueStorage.Bytes
