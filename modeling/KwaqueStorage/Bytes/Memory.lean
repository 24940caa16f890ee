import KwaqueStorage.Bytes.Buffer

/-!
# Storage that is shared

A fragment owns a part of an allocation, and parts of one allocation can have many owners: a builder that
still writes to it, buffers that were shared out of it, and batches of a scatter export. Here an allocation
is a block of a memory and a part of it is a **window**. Nothing is freed: what outlives what is the business
of the owners' reference counts, and a block that nobody owns is not looked at.
-/

namespace KwaqueStorage.Bytes

open Lib

/-- The blocks that were allocated, in order. -/
abbrev Memory : Type := List (List UInt8)

/-- `seastar::temporary_buffer`: a part of a block. -/
structure Window where
  block : Nat
  start : Nat
  length : Nat
  deriving DecidableEq

instance : Storage Window where
  size := Window.length
  share window skip take := ⟨window.block, window.start + skip, take⟩
  size_share _ := rfl

namespace Memory

/-- A block, if it was allocated. -/
def blockAt (memory : Memory) (block : Nat) : List UInt8 := memory[block]?.getD []

/-- The bytes a window shows. -/
def read (memory : Memory) (window : Window) : List UInt8 :=
  ((memory.blockAt window.block).drop window.start).take window.length

/-- `memcpy` into a block. -/
def write (memory : Memory) (block start : Nat) (bytes : List UInt8) : Memory :=
  memory.modify block fun old => old.take start ++ bytes ++ old.drop (start + bytes.length)

/-- A new block. -/
def allocate (memory : Memory) (bytes : List UInt8) : Memory := memory ++ [bytes]

/-- A window lies within a block that was allocated. -/
structure Valid (memory : Memory) (window : Window) : Prop where
  block : window.block < memory.length
  fits : window.start + window.length ≤ (memory.blockAt window.block).length

/-- Blocks stay, and keep their lengths. -/
structure Keeps (memory later : Memory) : Prop where
  length : memory.length ≤ later.length
  blocks : ∀ block, block < memory.length → (later.blockAt block).length = (memory.blockAt block).length

variable {memory later last : Memory} {window : Window}

theorem Keeps.refl : Keeps memory memory := ⟨Nat.le_refl _, fun _ _ => rfl⟩

theorem Keeps.trans (first : Keeps memory later) (second : Keeps later last) : Keeps memory last where
  length := first.length.trans second.length
  blocks block h := (second.blocks block (h.trans_le first.length)).trans (first.blocks block h)

theorem Valid.keeps (h : Valid memory window) (hkeeps : Keeps memory later) : Valid later window where
  block := h.block.trans_le hkeeps.length
  fits := h.fits.trans_eq (hkeeps.blocks window.block h.block).symm

theorem Valid.read_length (h : Valid memory window) : (memory.read window).length = window.length := by
  have hfits := h.fits
  unfold read
  rw [List.length_take, List.length_drop]
  omega

theorem Valid.share (h : Valid memory window) {skip take : Nat} (hle : skip + take ≤ window.length) :
    Valid memory (Storage.share window skip take) where
  block := h.block
  fits := by
    have hfits := h.fits
    change window.start + skip + take ≤ _
    exact (show window.start + skip + take ≤ window.start + window.length by omega).trans hfits

/-- Reading a shared part is taking that part of what was read. -/
theorem read_shares (memory : Memory) : Shares memory.read := by
  intro window skip take hle
  change ((memory.blockAt window.block).drop (window.start + skip)).take take
    = (((memory.blockAt window.block).drop window.start).take window.length |>.drop skip).take take
  change skip + take ≤ window.length at hle
  rw [List.drop_take, List.take_take, List.drop_drop, Nat.min_eq_left (by omega)]

/-! ## Allocating -/

variable {bytes : List UInt8}

theorem blockAt_allocate_of_lt {block : Nat} (h : block < memory.length) :
    (memory.allocate bytes).blockAt block = memory.blockAt block := by
  unfold blockAt allocate
  rw [List.getElem?_append_left h]

theorem blockAt_allocate : (memory.allocate bytes).blockAt memory.length = bytes := by
  unfold blockAt allocate
  rw [List.getElem?_append_right (Nat.le_refl _), Nat.sub_self]
  rfl

theorem keeps_allocate : Keeps memory (memory.allocate bytes) where
  length := by
    unfold allocate
    rw [List.length_append]
    exact Nat.le_add_right _ _
  blocks block h := by rw [blockAt_allocate_of_lt h]

theorem read_allocate_of_valid (h : Valid memory window) :
    (memory.allocate bytes).read window = memory.read window := by
  unfold read
  rw [blockAt_allocate_of_lt h.block]

theorem valid_allocate {bytes : List UInt8} :
    Valid (memory.allocate bytes) ⟨memory.length, 0, bytes.length⟩ where
  block := by
    unfold allocate
    rw [List.length_append]
    exact Nat.lt_succ_self _
  fits := by
    rw [blockAt_allocate]
    exact (Nat.zero_add _).le

theorem read_allocate :
    (memory.allocate bytes).read ⟨memory.length, 0, bytes.length⟩ = bytes := by
  unfold read
  rw [blockAt_allocate]
  exact List.take_length

/-! ## Writing -/

variable {block start : Nat} {bytes : List UInt8}

theorem blockAt_write_of_ne {other : Nat} (h : other ≠ block) :
    (memory.write block start bytes).blockAt other = memory.blockAt other := by
  unfold blockAt write
  rw [List.getElem?_modify_ne _ _ h.symm]

theorem blockAt_write (h : block < memory.length) : (memory.write block start bytes).blockAt block
    = (memory.blockAt block).take start ++ bytes ++ (memory.blockAt block).drop (start + bytes.length) := by
  unfold blockAt write
  rw [List.getElem?_modify_eq, List.getElem?_eq_getElem h]
  rfl

theorem keeps_write (h : start + bytes.length ≤ (memory.blockAt block).length) :
    Keeps memory (memory.write block start bytes) where
  length := (List.length_modify ..).ge
  blocks other hlt := by
    by_cases hsame : other = block
    · subst hsame
      rw [blockAt_write hlt, List.length_append, List.length_append, List.length_take, List.length_drop]
      omega
    · rw [blockAt_write_of_ne hsame]

/-- A window that ends before what is written shows what it showed. -/
theorem read_write_of_apart (hfits : start + bytes.length ≤ (memory.blockAt block).length)
    (hvalid : Valid memory window)
    (h : window.block = block → window.start + window.length ≤ start) :
    (memory.write block start bytes).read window = memory.read window := by
  unfold read
  by_cases hsame : window.block = block
  · have hend := h hsame
    have hblock := hvalid.block
    rw [hsame] at hblock ⊢
    have htaken : ((memory.blockAt block).take start).length = start := by
      rw [List.length_take]
      omega
    rw [blockAt_write hblock, List.append_assoc, List.drop_append_of_le_length (by omega),
      List.take_append_of_le_length (by rw [List.length_drop]; omega), List.drop_take, List.take_take,
      Nat.min_eq_left (by omega)]
  · rw [blockAt_write_of_ne hsame]

/-- What was written is there. -/
theorem read_write (hblock : block < memory.length)
    (hfits : start + bytes.length ≤ (memory.blockAt block).length) :
    (memory.write block start bytes).read ⟨block, start, bytes.length⟩ = bytes := by
  have htaken : ((memory.blockAt block).take start).length = start := by
    rw [List.length_take]
    omega
  unfold read
  dsimp only
  rw [blockAt_write hblock, List.append_assoc, List.drop_append, List.drop_eq_nil_of_le htaken.le, htaken,
    Nat.sub_self, List.drop_zero, List.nil_append, List.take_append_of_le_length (Nat.le_refl _),
    List.take_length]

/-- A window that is split in two shows both parts. -/
theorem read_split {first second : Nat} :
    memory.read ⟨block, start, first + second⟩
      = memory.read ⟨block, start, first⟩ ++ memory.read ⟨block, start + first, second⟩ := by
  unfold read
  dsimp only
  rw [List.take_add, List.drop_drop]

end Memory

/-! ## Buffers in memory -/

/-- The bytes a buffer holds in a memory. -/
def Buffer.content (memory : Memory) (buffer : Buffer Window) : List UInt8 :=
  (contents memory.read buffer.fragments).flatten

/-- A buffer whose fragments lie in the memory. -/
structure Buffer.Lies (memory : Memory) (buffer : Buffer Window) : Prop where
  sound : buffer.Sound
  windows : ∀ fragment ∈ buffer.fragments, memory.Valid fragment.storage

theorem Buffer.Lies.size_eq {memory : Memory} {buffer : Buffer Window} (h : buffer.Lies memory) :
    buffer.size = (buffer.content memory).length := by
  have hread : Readable memory.read buffer.fragments :=
    fun fragment hmem => (h.windows fragment hmem).read_length
  rw [h.sound.size, hread.sizes_eq]
  rfl

end KwaqueStorage.Bytes
