import KwaqueStorage.RetryPages.Page

/-!
# Looking up a completed retry

`retry_root_reader` answers two questions about the sealed retries of a segment: the entry of one
batch, and the newest entry of one stream. Opening it reads every page once and keeps, of each, only
the identities it begins and ends with. A lookup then searches this directory for the one page that can
hold the answer, reads it, and searches it.

The first question needs the last page that begins at or before the identity. The second asks for the
greatest entry at or below the greatest identity its stream could have; it lies in the last page that
begins at or before that one, wherever the page ends.
-/

namespace KwaqueStorage.RetryPages

open Layout Lib

/-- `local_root_pin`: the root of a bundle and its page file. -/
structure RootPin where
  root : BundleRoot
  pageFile : List UInt8
  deriving DecidableEq

/-- Where a page begins: after the pages before it. -/
def SealedFooter.offset (footer : SealedFooter) (ordinal : Nat) : Nat :=
  ((footer.pages.take ordinal).map PageRef.encodedBytes).sum

/-- `read_local_extent`. -/
def readLocalExtent (file : List UInt8) (position length : Nat) : Except Errc (List UInt8) := do
  require (length ≠ 0 ∧ length ≤ 65536 ∧ position + length ≤ Extent.u64Max) .invalidArgument
  require (position + length ≤ file.length) .truncatedData
  pure ((file.drop position).take length)

/-- `local_root_pin::read_retries`. -/
def RootPin.readRetries (codec : PageCodec) (policy : Limits) (pin : RootPin) (ordinal : Nat) :
    Except Errc (List CompletedRetry) :=
  match pin.root with
  | .sparseIndex => .error .wrongContext
  | .checkpoint => .error .wrongContext
  | .sealedFooter footer =>
    match footer.pages[ordinal]? with
    | none => .error .outOfRange
    | some reference => do
      let raw ← readLocalExtent pin.pageFile (footer.offset ordinal) reference.encodedBytes
      let (entries, taken) ← decodeRetryPage codec policy footer ordinal raw
      require (taken = raw.length) .malformedData
      pure entries

/-! ## The directory -/

/-- `retry_page_span`. -/
structure PageSpan where
  first : BatchId
  last : BatchId
  deriving DecidableEq

/-- `retry_page_directory`. -/
structure Directory where
  expected : Nat
  spans : List PageSpan := []
  deriving DecidableEq

/-- `retry_page_directory::make`. -/
def Directory.make (pages : Nat) : Except Errc Directory := do
  require (pages ≤ maximumObjectPages) .invalidArgument
  pure { expected := pages }

/-- `retry_page_directory::add`. -/
def Directory.add (directory : Directory) (entries : List CompletedRetry) : Except Errc Directory := do
  require (directory.spans.length ≠ directory.expected) .malformedData
  match entries.head?, entries.getLast? with
  | some head, some tail =>
    -- pages continue one another
    require (∀ span ∈ directory.spans.getLast?, span.last < head.id) .malformedData
    require (head.id ≤ tail.id) .malformedData
    pure { directory with spans := directory.spans ++ [⟨head.id, tail.id⟩] }
  | _, _ => .error .malformedData

/-- `retry_page_directory::floor`: the last page that begins at or before the identity. -/
def Directory.floor (directory : Directory) (id : BatchId) : Option Nat :=
  match (upTo PageSpan.first id directory.spans).length with
  | 0 => none
  | after + 1 => some after

/-- `retry_page_directory::find`: that page, unless it ends before the identity. -/
def Directory.find (directory : Directory) (id : BatchId) : Option Nat := do
  let ordinal ← directory.floor id
  let page ← directory.spans[ordinal]?
  if page.last < id then none else some ordinal

/-- `find_completed_retry`. -/
def findCompletedRetry (entries : List CompletedRetry) (id : BatchId) : Option CompletedRetry :=
  lookup CompletedRetry.id id entries

/-- `find_completed_retry_floor`. -/
def findCompletedRetryFloor (entries : List CompletedRetry) (id : BatchId) : Option CompletedRetry :=
  Lib.floor CompletedRetry.id id entries

/-! ## The reader -/

/-- `retry_root_reader`. -/
structure RootReader where
  pin : RootPin
  directory : Directory
  facts : Nat
  deriving DecidableEq

section

variable (codec : PageCodec) (policy : Limits)

/-- The pages of a root from an ordinal on, added to the directory, and their entries counted. -/
def addPages (pin : RootPin) : Nat → Nat → Directory → Nat → Except Errc (Directory × Nat)
  | 0, _, directory, counted => .ok (directory, counted)
  | left + 1, ordinal, directory, counted => do
    require (ordinal < maximumObjectPages) .outOfRange
    let entries ← pin.readRetries codec policy ordinal
    let directory ← directory.add entries
    addPages pin left (ordinal + 1) directory (counted + entries.length)

/-- `retry_root_reader::open`. -/
def RootReader.openRoot (pin : RootPin) : Except Errc RootReader :=
  match pin.root with
  | .sparseIndex => .error .wrongContext
  | .checkpoint => .error .wrongContext
  | .sealedFooter footer => do
    let directory ← Directory.make footer.pages.length
    let (directory, counted) ← addPages codec policy pin footer.pages.length 0 directory 0
    require (counted = footer.retryCount) .malformedData
    pure ⟨pin, directory, footer.retryCount⟩

/-- `retry_root_reader::page`. -/
def RootReader.page (reader : RootReader) (ordinal : Nat) : Except Errc (List CompletedRetry) := do
  require (ordinal < maximumObjectPages ∧ ordinal < reader.directory.spans.length) .outOfRange
  reader.pin.readRetries codec policy ordinal

/-- `retry_root_reader::find`. -/
def RootReader.find (reader : RootReader) (id : BatchId) : Except Errc (Option CompletedRetry) :=
  match reader.directory.find id with
  | none => .ok none
  | some ordinal => do
    let entries ← reader.page codec policy ordinal
    pure (findCompletedRetry entries id)

/-- `retry_root_reader::find_stream_last`. -/
def RootReader.findStreamLast (reader : RootReader) (stream : RetryPrefix) :
    Except Errc (Option CompletedRetry) := do
  -- no entry of the stream lies above its largest identity
  let probe ← BatchId.make stream.producer stream.epoch stream.stream (Fin.last _)
  match reader.directory.floor probe with
  | none => .ok none
  | some ordinal => do
    let entries ← reader.page codec policy ordinal
    -- a neighbour's entry is never the answer
    pure ((findCompletedRetryFloor entries probe).filter fun found => RetryPrefix.of found.id = stream)

end

end KwaqueStorage.RetryPages
