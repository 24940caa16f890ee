import KwaqueStorage.RetryPages.Lookup

/-!
# A lookup is a linear search

`open` accepts a root exactly when its pages are well formed, their entries are in strict order within
and across the pages, and there are as many of them as the root says. On a root it accepted, `find` and
`find_stream_last` answer what a search through every entry of every page would.

Both rest on one cut. The directory splits the pages at an identity: those before the last page that
begins at or before it hold only smaller entries, and those after it only greater ones.
-/

namespace KwaqueStorage.RetryPages

open Layout Lib

section

variable {codec : PageCodec} {policy : Limits} {pin : RootPin} {footer : SealedFooter}

/-- **What a page file stores** at an ordinal: a well-formed page in the extent of its reference, with
    the entries it holds. -/
def StoredPage (codec : PageCodec) (policy : Limits) (pin : RootPin) (footer : SealedFooter)
    (ordinal : Nat) (entries : List CompletedRetry) : Prop :=
  ∃ reference, footer.offset ordinal + reference.encodedBytes ≤ pin.pageFile.length
    ∧ footer.offset ordinal + reference.encodedBytes ≤ Extent.u64Max
    ∧ PageHolds codec policy footer ordinal reference
        ((pin.pageFile.drop (footer.offset ordinal)).take reference.encodedBytes) entries

/-- **The pages of a root**: each is well formed, and `pages` are their entries, in page order. -/
structure StoredPages (codec : PageCodec) (policy : Limits) (pin : RootPin) (footer : SealedFooter)
    (pages : List (List CompletedRetry)) : Prop where
  root : pin.root = .sealedFooter footer
  all : pages.length = footer.pages.length
  page : ∀ ordinal entries, pages[ordinal]? = some entries →
    StoredPage codec policy pin footer ordinal entries

theorem StoredPage.ne_nil {ordinal : Nat} {entries : List CompletedRetry}
    (h : StoredPage codec policy pin footer ordinal entries) : entries ≠ [] := by
  obtain ⟨reference, _, _, hpage⟩ := h
  obtain ⟨header, body, _, hbody, _⟩ := hpage.whole
  rintro rfl
  have hslots := hbody.held.length_eq
  have hpos := reference.entries_pos
  cases hcount : reference.entryCount with
  | zero => omega
  | succ count =>
    rw [hcount, slots] at hslots
    simp at hslots

/-- **Reading a page** answers the entries it stores, when they are in strict order. -/
theorem readRetries_eq_ok (hroot : pin.root = .sealedFooter footer) {ordinal : Nat}
    {entries : List CompletedRetry} : pin.readRetries codec policy ordinal = .ok entries
      ↔ StoredPage codec policy pin footer ordinal entries ∧ Ordered CompletedRetry.id entries := by
  unfold RootPin.readRetries
  rw [hroot]
  dsimp only
  cases hlisted : footer.pages[ordinal]? with
  | none =>
    refine iff_of_false nofun ?_
    rintro ⟨⟨reference, _, _, hpage⟩, _⟩
    exact nomatch hlisted.symm.trans hpage.listed
  | some reference =>
    have hleast := reference.encoded_least
    have hmost := reference.encoded_most
    have hlength : footer.offset ordinal + reference.encodedBytes ≤ pin.pageFile.length →
        ((pin.pageFile.drop (footer.offset ordinal)).take reference.encodedBytes).length
          = reference.encodedBytes := by
      intro hfits
      rw [List.length_take, List.length_drop]
      omega
    unfold readLocalExtent decodeRetryPage
    simp only [bind_eq_ok, require_eq_ok, exists_const, pure_eq_ok, Prod.exists, decodePage_eq_ok]
    constructor
    · rintro ⟨raw, ⟨⟨_, _, hrange⟩, hfits, rfl⟩, found, taken, ⟨⟨reference', hpage, rfl⟩, hordered, _⟩,
        _, rfl⟩
      obtain rfl := Option.some.inj (hlisted.symm.trans hpage.listed)
      exact ⟨⟨reference, hfits, hrange, hpage⟩, hordered⟩
    · rintro ⟨⟨reference', hfits, hrange, hpage⟩, hordered⟩
      obtain rfl := Option.some.inj (hlisted.symm.trans hpage.listed)
      refine ⟨_, ⟨⟨by omega, hmost, hrange⟩, hfits, rfl⟩, entries, reference.encodedBytes,
        ⟨⟨reference, hpage, rfl⟩, hordered, by simp⟩, ?_, rfl⟩
      exact (hlength hfits).symm

/-! ## The directory of the pages -/

/-- A span is that of a page. -/
def Spans (page : List CompletedRetry) (span : PageSpan) : Prop :=
  (∃ head ∈ page.head?, head.id = span.first) ∧ ∃ tail ∈ page.getLast?, tail.id = span.last

theorem Spans.ne_nil {page : List CompletedRetry} {span : PageSpan} (h : Spans page span) :
    page ≠ [] := by
  obtain ⟨⟨head, hhead, _⟩, _⟩ := h
  rintro rfl
  cases hhead

variable {pages : List (List CompletedRetry)}

/-- A page has one span, so pages have one directory. -/
theorem spans_unique {spans spans' : List PageSpan} (h : List.Forall₂ Spans pages spans)
    (h' : List.Forall₂ Spans pages spans') : spans = spans' := by
  refine List.right_unique_forall₂' ?_ h h'
  rintro page ⟨first, last⟩ ⟨first', last'⟩ ⟨⟨head, hhead, rfl⟩, tail, htail, rfl⟩
    ⟨⟨head', hhead', rfl⟩, tail', htail', rfl⟩
  rw [Option.mem_unique hhead hhead', Option.mem_unique htail htail']

/-- The pages of a directory that is cut in two are cut with it. -/
theorem spans_append {first rest : List PageSpan} (h : List.Forall₂ Spans pages (first ++ rest)) :
    ∃ before after, pages = before ++ after ∧ List.Forall₂ Spans before first
      ∧ List.Forall₂ Spans after rest :=
  ⟨_, _, (List.take_append_drop first.length pages).symm, List.forall₂_take_append _ _ _ h,
    List.forall₂_drop_append _ _ _ h⟩

theorem spans_singleton {span : PageSpan} (h : List.Forall₂ Spans pages [span])
    : ∃ page, pages = [page] ∧ Spans page span := by
  cases h with
  | cons hspan hrest =>
    cases hrest
    exact ⟨_, rfl, hspan⟩

/-- The last entry of the pages is that of the last page. -/
theorem getLast_flatten {spans : List PageSpan} (h : List.Forall₂ Spans pages spans) {tail : CompletedRetry}
    (htail : tail ∈ pages.flatten.getLast?) :
    ∃ span ∈ spans.getLast?, span.last = tail.id := by
  induction h with
  | nil => cases htail
  | @cons page span pages spans hspan hrest ih =>
    rw [List.flatten_cons, List.getLast?_append] at htail
    cases hlast : pages.flatten.getLast? with
    | none =>
      rw [hlast] at htail
      have hnil : pages = [] := by
        cases hrest with
        | nil => rfl
        | @cons q s _ _ hq _ =>
          rw [List.getLast?_eq_none_iff, List.flatten_cons, List.append_eq_nil_iff] at hlast
          exact absurd hlast.1 hq.ne_nil
      subst hnil
      cases hrest
      obtain ⟨_, last, hmem, hid⟩ := hspan
      have heq : last = tail := Option.mem_unique hmem htail
      exact ⟨span, rfl, heq ▸ hid.symm⟩
    | some last =>
      rw [hlast, Option.some_or] at htail
      obtain ⟨s, hs, hid⟩ := ih (hlast.trans htail)
      refine ⟨s, ?_, hid⟩
      cases spans with
      | nil => cases hs
      | cons s' rest => exact hs

/-- **Adding a page** keeps its span, when its entries continue those before it. -/
theorem Directory.add_eq_ok {directory directory' : Directory} {entries : List CompletedRetry}
    (hspans : List.Forall₂ Spans pages directory.spans) (hordered : Ordered CompletedRetry.id pages.flatten)
    (hne : entries ≠ []) (hentries : Ordered CompletedRetry.id entries)
    (hleft : directory.spans.length ≠ directory.expected) :
    directory.add entries = .ok directory'
      ↔ Ordered CompletedRetry.id (pages ++ [entries]).flatten
        ∧ ∃ span, Spans entries span
          ∧ directory' = { directory with spans := directory.spans ++ [span] } := by
  obtain ⟨head, hhead⟩ := Option.isSome_iff_exists.mp (List.isSome_head?.mpr hne)
  obtain ⟨tail, htail⟩ := Option.isSome_iff_exists.mp (List.getLast?_isSome.mpr hne)
  have hends : head.id ≤ tail.id := hentries.head_le hhead (List.mem_of_getLast? htail)
  have hafter : (∀ span ∈ directory.spans.getLast?, span.last < head.id)
      ↔ Ordered CompletedRetry.id (pages ++ [entries]).flatten := by
    rw [List.flatten_append, List.flatten_singleton, Ordered.append_iff]
    constructor
    · intro hbefore
      refine ⟨hordered, hentries, ?_⟩
      intro x hx y hy
      obtain rfl := Option.some.inj (hhead.symm.trans hy)
      obtain ⟨span, hspan, hlast⟩ := getLast_flatten hspans hx
      rw [← hlast]
      exact hbefore span hspan
    · rintro ⟨_, _, hbetween⟩ span hspan
      obtain ⟨init, hinit⟩ := List.getLast?_eq_some_iff.mp hspan
      rw [hinit] at hspans
      obtain ⟨before, rest, rfl, _, hrest⟩ := spans_append hspans
      obtain ⟨last, rfl, _, final, hfinal, hid⟩ := spans_singleton hrest
      rw [← hid]
      apply hbetween final _ head hhead
      rw [List.flatten_append, List.flatten_singleton, List.getLast?_append, hfinal]
      rfl
  unfold Directory.add
  rw [hhead, htail]
  simp only [bind_eq_ok, require_eq_ok, exists_const, pure_eq_ok]
  constructor
  · rintro ⟨_, hbefore, _, rfl⟩
    exact ⟨hafter.mp hbefore, ⟨head.id, tail.id⟩, ⟨⟨head, hhead, rfl⟩, tail, htail, rfl⟩, rfl⟩
  · rintro ⟨hall, span, ⟨⟨h, hh, hfirst⟩, t, ht, hlast⟩, rfl⟩
    obtain rfl := Option.mem_unique hh hhead
    obtain rfl := Option.mem_unique ht htail
    refine ⟨hleft, hafter.mpr hall, hends, ?_⟩
    rw [hfirst, hlast]

/-! ## Opening -/

/-- **Adding the pages that are left** to those of a directory. -/
theorem addPages_eq_ok (hroot : pin.root = .sealedFooter footer) {left ordinal counted counted' : Nat}
    {directory directory' : Directory} {done : List (List CompletedRetry)}
    (hspans : List.Forall₂ Spans done directory.spans)
    (hordered : Ordered CompletedRetry.id done.flatten)
    (hexpected : directory.spans.length + left = directory.expected)
    (hmost : ordinal + left ≤ maximumObjectPages) :
    addPages codec policy pin left ordinal directory counted = .ok (directory', counted')
      ↔ ∃ more, more.length = left
        ∧ (∀ i entries, more[i]? = some entries →
            StoredPage codec policy pin footer (ordinal + i) entries)
        ∧ Ordered CompletedRetry.id (done ++ more).flatten
        ∧ List.Forall₂ Spans (done ++ more) directory'.spans
        ∧ directory'.expected = directory.expected
        ∧ counted' = counted + more.flatten.length := by
  induction left generalizing ordinal directory done counted with
  | zero =>
    rw [addPages]
    constructor
    · intro h
      cases h
      refine ⟨[], rfl, by simp, ?_, ?_, rfl, rfl⟩
      · rwa [List.append_nil]
      · rwa [List.append_nil]
    · rintro ⟨more, hlength, _, _, hspans', hexpected', rfl⟩
      obtain rfl := List.length_eq_zero_iff.mp hlength
      rw [List.append_nil] at hspans'
      have hsame : directory = directory' := by
        obtain ⟨expected, spans⟩ := directory
        obtain ⟨expected', spans'⟩ := directory'
        rw [Directory.mk.injEq]
        exact ⟨hexpected'.symm, spans_unique hspans hspans'⟩
      rw [hsame]
      rfl
  | succ left ih =>
    rw [addPages]
    simp only [bind_eq_ok, require_eq_ok, exists_const, readRetries_eq_ok hroot]
    constructor
    · rintro ⟨_, entries, ⟨hstored, hentries⟩, next, hadd, hrest⟩
      obtain ⟨hall, span, hspan, rfl⟩ := (Directory.add_eq_ok hspans hordered hstored.ne_nil hentries
        (by omega)).mp hadd
      have hspans' : List.Forall₂ Spans (done ++ [entries]) (directory.spans ++ [span]) :=
        List.rel_append hspans (List.Forall₂.cons hspan List.Forall₂.nil)
      obtain ⟨more, hlength, hmore, hordered', hdirectory, hexp, hcounted⟩ :=
        (ih hspans' hall (by simp only [List.length_append, List.length_singleton]; omega)
          (by omega)).mp hrest
      rw [List.append_assoc] at hordered' hdirectory
      refine ⟨entries :: more, by rw [List.length_cons, hlength], ?_, hordered', hdirectory, hexp, ?_⟩
      · intro i page hpage
        cases i with
        | zero =>
          cases hpage
          exact hstored
        | succ i =>
          have hnext := hmore i page hpage
          rwa [Nat.add_right_comm, Nat.add_assoc] at hnext
      · rw [hcounted, List.flatten_cons, List.length_append]
        omega
    · rintro ⟨more, hlength, hmore, hordered', hdirectory, hexp, hcounted⟩
      cases more with
      | nil => cases hlength
      | cons entries more =>
        have hstored : StoredPage codec policy pin footer ordinal entries := hmore 0 entries rfl
        rw [List.append_cons] at hordered' hdirectory
        have hall : Ordered CompletedRetry.id (done ++ [entries]).flatten := by
          rw [List.flatten_append] at hordered'
          exact (Ordered.append_iff.mp hordered').1
        have hentries : Ordered CompletedRetry.id entries := by
          rw [List.flatten_append, List.flatten_singleton] at hall
          exact (Ordered.append_iff.mp hall).2.1
        have hnonempty := hstored.ne_nil
        obtain ⟨head, hhead⟩ := Option.isSome_iff_exists.mp (List.isSome_head?.mpr hnonempty)
        obtain ⟨tail, htail⟩ := Option.isSome_iff_exists.mp (List.getLast?_isSome.mpr hnonempty)
        have hspan : Spans entries ⟨head.id, tail.id⟩ := ⟨⟨head, hhead, rfl⟩, tail, htail, rfl⟩
        have hspans' : List.Forall₂ Spans (done ++ [entries])
            (directory.spans ++ [⟨head.id, tail.id⟩]) :=
          List.rel_append hspans (List.Forall₂.cons hspan List.Forall₂.nil)
        refine ⟨by omega, entries, ⟨hstored, hentries⟩, _,
          (Directory.add_eq_ok hspans hordered hnonempty hentries (by omega)).mpr
            ⟨hall, _, hspan, rfl⟩, ?_⟩
        refine (ih hspans' hall (by simp only [List.length_append, List.length_singleton]; omega)
          (by omega)).mpr ⟨more, ?_, ?_, hordered', hdirectory, hexp, ?_⟩
        · rw [List.length_cons] at hlength
          omega
        · intro i page hpage
          have hnext := hmore (i + 1) page hpage
          rwa [← Nat.add_assoc, Nat.add_right_comm] at hnext
        · rw [hcounted, List.flatten_cons, List.length_append]
          omega

/-- **A reader that was opened**, with the pages it was opened over: they are well formed, their entries
    are in strict order within and across them and as many as the root counts, and the directory has
    the span of each. -/
structure Opened (codec : PageCodec) (policy : Limits) (reader : RootReader) (footer : SealedFooter)
    (pages : List (List CompletedRetry)) : Prop where
  stored : StoredPages codec policy reader.pin footer pages
  ordered : Ordered CompletedRetry.id pages.flatten
  counted : pages.flatten.length = footer.retryCount
  facts : reader.facts = footer.retryCount
  spans : List.Forall₂ Spans pages reader.directory.spans
  expected : reader.directory.expected = footer.pages.length

variable {reader : RootReader}

theorem openRoot_eq_ok : RootReader.openRoot codec policy pin = .ok reader
    ↔ reader.pin = pin ∧ ∃ footer pages, Opened codec policy reader footer pages := by
  unfold RootReader.openRoot
  cases hroot : pin.root with
  | sparseIndex =>
    refine iff_of_false nofun ?_
    rintro ⟨rfl, footer, pages, h⟩
    exact nomatch hroot.symm.trans h.stored.root
  | checkpoint =>
    refine iff_of_false nofun ?_
    rintro ⟨rfl, footer, pages, h⟩
    exact nomatch hroot.symm.trans h.stored.root
  | sealedFooter footer =>
    have hmost := footer.pages_most
    have hadd : ∀ directory' counted', addPages codec policy pin footer.pages.length 0
        { expected := footer.pages.length } 0 = .ok (directory', counted') ↔ _ := fun _ _ =>
      @addPages_eq_ok codec policy pin footer hroot footer.pages.length 0 0 _
        { expected := footer.pages.length } _ [] List.Forall₂.nil Ordered.nil (Nat.zero_add _)
        (by omega)
    unfold Directory.make
    simp only [bind_eq_ok, require_eq_ok, exists_const, pure_eq_ok, Prod.exists, exists_eq_left', hadd,
      hmost, true_and, List.nil_append, Nat.zero_add]
    constructor
    · rintro ⟨directory, counted, ⟨pages, hall, hstored, hordered, hspans, hexpected, rfl⟩, hcounted, rfl⟩
      exact ⟨rfl, footer, pages, ⟨hroot, hall, hstored⟩, hordered, hcounted, rfl, hspans, hexpected⟩
    · rintro ⟨rfl, footer', pages, h⟩
      obtain rfl : footer = footer' := by
        have heq := hroot.symm.trans h.stored.root
        injection heq
      refine ⟨reader.directory, pages.flatten.length,
        ⟨pages, h.stored.all, h.stored.page, h.ordered, h.spans, h.expected, rfl⟩, h.counted, ?_⟩
      rw [← h.facts]

/-- Pages that hold something have a directory. -/
theorem exists_spans (h : ∀ page ∈ pages, page ≠ []) :
    ∃ spans, List.Forall₂ Spans pages spans := by
  induction pages with
  | nil => exact ⟨[], List.Forall₂.nil⟩
  | cons page pages ih =>
    obtain ⟨spans, hspans⟩ := ih fun page hpage => h page (List.mem_cons_of_mem _ hpage)
    have hne := h page List.mem_cons_self
    obtain ⟨head, hhead⟩ := Option.isSome_iff_exists.mp (List.isSome_head?.mpr hne)
    obtain ⟨tail, htail⟩ := Option.isSome_iff_exists.mp (List.getLast?_isSome.mpr hne)
    exact ⟨⟨head.id, tail.id⟩ :: spans,
      List.Forall₂.cons ⟨⟨head, hhead, rfl⟩, tail, htail, rfl⟩ hspans⟩

/-- Some reader opens exactly over well-formed pages in strict order that are as many entries as the
    root counts. -/
theorem openRoot_accepts : (∃ reader, RootReader.openRoot codec policy pin = .ok reader)
    ↔ ∃ footer pages, StoredPages codec policy pin footer pages
      ∧ Ordered CompletedRetry.id pages.flatten ∧ pages.flatten.length = footer.retryCount := by
  constructor
  · rintro ⟨reader, hopen⟩
    obtain ⟨rfl, footer, pages, h⟩ := openRoot_eq_ok.mp hopen
    exact ⟨footer, pages, h.stored, h.ordered, h.counted⟩
  · rintro ⟨footer, pages, hstored, hordered, hcounted⟩
    have hne : ∀ page ∈ pages, page ≠ [] := by
      intro page hpage
      obtain ⟨ordinal, hordinal⟩ := List.mem_iff_getElem?.mp hpage
      exact (hstored.page ordinal page hordinal).ne_nil
    obtain ⟨spans, hspans⟩ := exists_spans hne
    exact ⟨⟨pin, ⟨footer.pages.length, spans⟩, footer.retryCount⟩, openRoot_eq_ok.mpr
      ⟨rfl, footer, pages, hstored, hordered, hcounted, rfl, hspans, rfl⟩⟩

/-! ## The cut of an identity -/

/-- Where the first entries of pages lie, all their entries lie. -/
theorem lt_of_spans {spans : List PageSpan} {id : BatchId} (h : List.Forall₂ Spans pages spans)
    (hordered : Ordered CompletedRetry.id pages.flatten) (hfirst : ∀ span ∈ spans, id < span.first)
    : ∀ entry ∈ pages.flatten, id < entry.id := by
  induction h with
  | nil =>
    intro entry hentry
    cases hentry
  | @cons page span pages spans hspan hrest ih =>
    rw [List.flatten_cons] at hordered ⊢
    obtain ⟨hpage, hpages, _⟩ := Ordered.append_iff.mp hordered
    intro entry hentry
    rcases List.mem_append.mp hentry with hentry | hentry
    · obtain ⟨⟨head, hhead, hid⟩, _⟩ := hspan
      calc id < span.first := hfirst span List.mem_cons_self
        _ = head.id := hid.symm
        _ ≤ entry.id := hpage.head_le hhead hentry
    · exact ih hpages (fun s hs => hfirst s (List.mem_cons_of_mem _ hs)) entry hentry

/-- The directory of pages in order is in order. -/
theorem spans_ordered {spans : List PageSpan} (h : List.Forall₂ Spans pages spans)
    (hordered : Ordered CompletedRetry.id pages.flatten) :
    Ordered PageSpan.first spans := by
  induction h with
  | nil => exact Ordered.nil
  | @cons page span pages spans hspan hrest ih =>
    rw [List.flatten_cons] at hordered
    have hbetween := (List.pairwise_append.mp hordered).2.2
    obtain ⟨_, hpages, _⟩ := Ordered.append_iff.mp hordered
    refine List.pairwise_cons.mpr ⟨?_, ih hpages⟩
    intro other hother
    obtain ⟨⟨head, hhead, hid⟩, _⟩ := hspan
    obtain ⟨ordinal, hordinal⟩ := List.mem_iff_getElem.mp hother
    obtain ⟨hlt, rfl⟩ := hordinal
    have hlt' : ordinal < pages.length := by rw [hrest.length_eq]; exact hlt
    obtain ⟨⟨head', hhead', hid'⟩, _⟩ := hrest.get hlt' hlt
    rw [List.get_eq_getElem] at hid' hhead'
    rw [← hid, ← hid']
    apply hbetween head (List.mem_of_head? hhead)
    exact List.mem_flatten.mpr ⟨_, List.getElem_mem hlt', List.mem_of_head? hhead'⟩

/-- **No page begins at or before an identity**: every entry is greater. -/
theorem Opened.floor_none {id : BatchId} (h : Opened codec policy reader footer pages)
    (hfloor : reader.directory.floor id = none) :
    ∀ entry ∈ pages.flatten, id < entry.id := by
  have hordered := spans_ordered h.spans h.ordered
  have hnone : upTo PageSpan.first id reader.directory.spans = [] := by
    unfold Directory.floor at hfloor
    cases hlength : (upTo PageSpan.first id reader.directory.spans).length with
    | zero => exact List.length_eq_zero_iff.mp hlength
    | succ n =>
      rw [hlength] at hfloor
      cases hfloor
  apply lt_of_spans h.spans h.ordered
  intro span hspan
  rw [← @upTo_append_above _ _ _ PageSpan.first id reader.directory.spans, hnone,
    List.nil_append] at hspan
  exact hordered.lt_of_mem_above hspan

/-- **The last page that begins at or before an identity** cuts the entries: those of the pages before it
    are smaller than its own, and those of the pages after it are greater than the identity. -/
theorem Opened.floor_some {id : BatchId} {ordinal : Nat} (h : Opened codec policy reader footer pages)
    (hfloor : reader.directory.floor id = some ordinal) :
    ∃ before page after span, pages = before ++ page :: after ∧ pages[ordinal]? = some page
      ∧ reader.directory.spans[ordinal]? = some span ∧ Spans page span ∧ span.first ≤ id
      ∧ (∀ entry ∈ before.flatten, ∀ own ∈ page, entry.id < own.id)
      ∧ ∀ entry ∈ after.flatten, id < entry.id := by
  have hordered := spans_ordered h.spans h.ordered
  unfold Directory.floor at hfloor
  cases hlength : (upTo PageSpan.first id reader.directory.spans).length with
  | zero =>
    rw [hlength] at hfloor
    cases hfloor
  | succ n =>
    rw [hlength] at hfloor
    obtain rfl := Option.some.inj hfloor
    have hne : upTo PageSpan.first id reader.directory.spans ≠ [] := by
      intro hnil
      rw [hnil] at hlength
      cases hlength
    obtain ⟨init, span, hinit⟩ := List.eq_nil_or_concat'
      (upTo PageSpan.first id reader.directory.spans) |>.resolve_left hne
    have hn : init.length = n := by
      rw [hinit, List.length_append, List.length_singleton] at hlength
      omega
    have hsplit : reader.directory.spans
        = init ++ [span] ++ above PageSpan.first id reader.directory.spans := by
      rw [← hinit, upTo_append_above]
    have hspans := h.spans
    rw [hsplit] at hspans
    obtain ⟨upto, after, rfl, hupto, hafter⟩ := spans_append hspans
    obtain ⟨before, last, rfl, hbefore, hlast⟩ := spans_append hupto
    obtain ⟨page, rfl, hspan⟩ := spans_singleton hlast
    have hlen : before.length = n := hbefore.length_eq.trans hn
    have hflat := h.ordered
    rw [List.flatten_append, List.flatten_append, List.flatten_singleton] at hflat
    obtain ⟨hfirst, hrest, _⟩ := Ordered.append_iff.mp hflat
    refine ⟨before, page, after, span, by simp, ?_, ?_, hspan, ?_, ?_, ?_⟩
    · rw [List.append_assoc, ← hlen]
      simp
    · rw [hsplit, List.append_assoc, ← hn]
      simp
    · apply le_of_mem_upTo
      rw [hinit]
      simp
    · intro entry hentry own hown
      exact (List.pairwise_append.mp hfirst).2.2 entry hentry own hown
    · exact lt_of_spans hafter hrest fun s hs => hordered.lt_of_mem_above hs

/-! ## The two lookups -/

theorem Opened.page_ordered {before after : List (List CompletedRetry)} {page : List CompletedRetry}
    (h : Opened codec policy reader footer (before ++ page :: after)) :
    Ordered CompletedRetry.id page := by
  have hflat := h.ordered
  rw [List.flatten_append, List.flatten_cons] at hflat
  exact (Ordered.append_iff.mp (Ordered.append_iff.mp hflat).2.1).1

/-- A page of the directory is read again as it was. -/
theorem Opened.page_eq {ordinal : Nat} {page : List CompletedRetry}
    (h : Opened codec policy reader footer pages) (hpage : pages[ordinal]? = some page)
    : reader.page codec policy ordinal = .ok page := by
  have hlt : ordinal < pages.length := (List.getElem?_eq_some_iff.mp hpage).1
  have hmost := footer.pages_most
  have hlength := h.spans.length_eq
  have hall := h.stored.all
  have hread := h.stored.page ordinal page hpage
  have hordered : Ordered CompletedRetry.id page := by
    obtain ⟨before, after, rfl⟩ := List.append_of_mem (List.mem_of_getElem? hpage)
    exact h.page_ordered
  unfold RootReader.page
  simp only [bind_eq_ok, require_eq_ok, exists_const]
  exact ⟨⟨by omega, by omega⟩, (readRetries_eq_ok h.stored.root).mpr ⟨hread, hordered⟩⟩

/-- **Finding a batch** answers the entry some page holds for it, and nothing when none does. -/
theorem Opened.find_spec (h : Opened codec policy reader footer pages) (id : BatchId) :
    ∃ answer, reader.find codec policy id = .ok answer
      ∧ ∀ entry, answer = some entry ↔ entry ∈ pages.flatten ∧ entry.id = id := by
  unfold RootReader.find Directory.find
  cases hfloor : reader.directory.floor id with
  | none =>
    refine ⟨none, rfl, fun entry => iff_of_false nofun ?_⟩
    rintro ⟨hentry, rfl⟩
    exact lt_irrefl _ (h.floor_none hfloor entry hentry)
  | some ordinal =>
    obtain ⟨before, page, after, span, rfl, hpage, hspan, ⟨⟨head, hhead, hfirst⟩, tail, htail, hlast⟩,
      hbegins, hbefore, hafter⟩ := h.floor_some hfloor
    have hordered := h.page_ordered
    -- what is neither before nor after the cut is in the page
    have hin : ∀ entry, entry ∈ (before ++ page :: after).flatten ∧ entry.id = id
        ↔ entry ∈ page ∧ entry.id = id := by
      intro entry
      rw [List.flatten_append, List.flatten_cons, List.mem_append, List.mem_append]
      constructor
      · rintro ⟨hentry | hentry | hentry, rfl⟩
        · have hlt := hbefore entry hentry head (List.mem_of_head? hhead)
          rw [hfirst] at hlt
          exact absurd hbegins (not_le.mpr hlt)
        · exact ⟨hentry, rfl⟩
        · exact absurd (hafter entry hentry) (lt_irrefl _)
      · rintro ⟨hentry, hid⟩
        exact ⟨.inr (.inl hentry), hid⟩
    by_cases hends : span.last < id
    · refine ⟨none, by simp [hspan, hends], fun entry => iff_of_false nofun ?_⟩
      intro hholds
      obtain ⟨hentry, rfl⟩ := (hin entry).mp hholds
      rw [← hlast] at hends
      exact absurd (hordered.le_getLast htail hentry) (not_le.mpr hends)
    · refine ⟨findCompletedRetry page id, ?_, fun entry => ?_⟩
      · simp only [Option.bind_eq_bind, Option.bind_some, hspan, hends, if_false, h.page_eq hpage]
        rfl
      · rw [hin]
        exact hordered.lookup_eq_some

/-- A stream some batch is of has a largest identity. -/
theorem exists_probe {stream : RetryPrefix} {id : BatchId} (h : RetryPrefix.of id = stream) :
    ∃ probe, BatchId.make stream.producer stream.epoch stream.stream (Fin.last _) = .ok probe := by
  subst h
  exact ⟨{ id with sequence := Fin.last _ }, BatchId.make_eq_ok.mpr ⟨rfl, rfl, rfl, rfl⟩⟩

/-- **Finding the last of a stream** answers the entry of the stream with the greatest sequence, and
    nothing when no page holds one of it. -/
theorem Opened.findStreamLast_spec (h : Opened codec policy reader footer pages) {stream : RetryPrefix}
    {probe : BatchId}
    (hprobe : BatchId.make stream.producer stream.epoch stream.stream (Fin.last _) = .ok probe) :
    ∃ answer, reader.findStreamLast codec policy stream = .ok answer
      ∧ ∀ entry, answer = some entry ↔ entry ∈ pages.flatten ∧ RetryPrefix.of entry.id = stream
        ∧ ∀ other ∈ pages.flatten, RetryPrefix.of other.id = stream →
          other.id.sequence ≤ entry.id.sequence := by
  obtain ⟨hproducer, hepoch, hnumber, hlargest⟩ := BatchId.make_eq_ok.mp hprobe
  have hstream : RetryPrefix.of probe = stream := by
    unfold RetryPrefix.of
    rw [hproducer, hepoch, hnumber]
  -- no identity of the stream lies above its largest
  have hbelow : ∀ id, RetryPrefix.of id = stream → id ≤ probe := by
    intro id hid
    rw [RetryPrefix.le_iff (hid.trans hstream.symm), hlargest]
    exact Fin.le_last _
  unfold RootReader.findStreamLast
  rw [hprobe]
  cases hfloor : reader.directory.floor probe with
  | none =>
    refine ⟨none, by simp [hfloor, bind, Except.bind], fun entry => iff_of_false nofun ?_⟩
    rintro ⟨hentry, hof, _⟩
    exact absurd (hbelow entry.id hof) (not_le.mpr (h.floor_none hfloor entry hentry))
  | some ordinal =>
    obtain ⟨before, page, after, span, rfl, hpage, _, ⟨⟨head, hhead, hfirst⟩, _⟩, hbegins, hbefore,
      hafter⟩ := h.floor_some hfloor
    have hordered := h.page_ordered
    obtain ⟨found, hfound⟩ := hordered.exists_floor (List.mem_of_head? hhead)
      (hfirst.le.trans hbegins)
    obtain ⟨hmem, hle, hgreatest⟩ := hordered.floor_eq_some.mp hfound
    -- what is at or below the probe is at or below what was found
    have hall : ∀ other ∈ (before ++ page :: after).flatten, other.id ≤ probe → other.id ≤ found.id := by
      intro other hother hothers
      rw [List.flatten_append, List.flatten_cons, List.mem_append, List.mem_append] at hother
      rcases hother with hother | hother | hother
      · exact le_of_lt (hbefore other hother found hmem)
      · exact hgreatest other hother hothers
      · exact absurd hothers (not_le.mpr (hafter other hother))
    have hin : found ∈ (before ++ page :: after).flatten := by
      rw [List.flatten_append, List.flatten_cons]
      exact List.mem_append_right _ (List.mem_append_left _ hmem)
    refine ⟨(findCompletedRetryFloor page probe).filter fun found => RetryPrefix.of found.id = stream,
      ?_, fun entry => ?_⟩
    · simp only [bind, Except.bind, hfloor, h.page_eq hpage]
      rfl
    · unfold findCompletedRetryFloor
      rw [hfound, Option.filter_eq_some_iff, decide_eq_true_eq]
      constructor
      · rintro ⟨heq, hof⟩
        cases heq
        refine ⟨hin, hof, fun other hother hothers => ?_⟩
        rw [← RetryPrefix.le_iff (hothers.trans hof.symm)]
        exact hall other hother (hbelow other.id hothers)
      · rintro ⟨hentry, hof, hlast⟩
        have hup := hall entry hentry (hbelow entry.id hof)
        have hfoundof : RetryPrefix.of found.id = stream :=
          (RetryPrefix.between hup hle (hof.trans hstream.symm)).trans hstream
        have hdown : found.id ≤ entry.id :=
          (RetryPrefix.le_iff (hfoundof.trans hof.symm)).mpr (hlast found hin hfoundof)
        rw [h.ordered.unique hentry hin (le_antisymm hup hdown)]
        exact ⟨rfl, hfoundof⟩

/-- **A lookup is a linear search.** `open` accepts a root if and only if it has pages that are each well
    formed, with entries in strict order within and across them, as many as the root counts. Over a
    root it accepted, `find` answers, without failing, the entry of an identity exactly when some page
    holds it, and `find_stream_last` the entry of a stream with the greatest sequence exactly when some
    page holds one of it; it refuses only a prefix that no batch can have. -/
theorem retry_lookup (codec : PageCodec) (policy : Limits) (pin : RootPin) :
    ((∃ reader, RootReader.openRoot codec policy pin = .ok reader)
      ↔ ∃ footer pages, StoredPages codec policy pin footer pages
        ∧ Ordered CompletedRetry.id pages.flatten ∧ pages.flatten.length = footer.retryCount)
    ∧ ∀ reader, RootReader.openRoot codec policy pin = .ok reader →
      ∃ footer pages, StoredPages codec policy pin footer pages
        ∧ (∀ id, ∃ answer, reader.find codec policy id = .ok answer
            ∧ ∀ entry, answer = some entry ↔ (∃ page ∈ pages, entry ∈ page) ∧ entry.id = id)
        ∧ (∀ stream, ∀ entry, reader.findStreamLast codec policy stream = .ok (some entry)
            ↔ (∃ page ∈ pages, entry ∈ page) ∧ RetryPrefix.of entry.id = stream
              ∧ ∀ page ∈ pages, ∀ other ∈ page, RetryPrefix.of other.id = stream →
                other.id.sequence ≤ entry.id.sequence)
        ∧ ∀ stream code, reader.findStreamLast codec policy stream = .error code →
            ∀ id : BatchId, RetryPrefix.of id ≠ stream := by
  refine ⟨openRoot_accepts, ?_⟩
  intro reader hopen
  obtain ⟨rfl, footer, pages, h⟩ := openRoot_eq_ok.mp hopen
  refine ⟨footer, pages, h.stored, ?_, ?_, ?_⟩
  · intro id
    obtain ⟨answer, hanswer, hspec⟩ := h.find_spec id
    refine ⟨answer, hanswer, fun entry => ?_⟩
    rw [hspec, List.mem_flatten]
  · intro stream entry
    cases hprobe : BatchId.make stream.producer stream.epoch stream.stream (Fin.last _) with
    | ok probe =>
      obtain ⟨answer, hanswer, hspec⟩ := h.findStreamLast_spec hprobe
      rw [hanswer, Except.ok.injEq, hspec]
      simp only [List.mem_flatten, forall_exists_index, and_imp]
      constructor
      · rintro ⟨hentry, hof, hlast⟩
        exact ⟨hentry, hof, fun page hpage other hother => hlast other page hpage hother⟩
      · rintro ⟨hentry, hof, hlast⟩
        exact ⟨hentry, hof, fun other page hpage hother => hlast page hpage other hother⟩
    | error code =>
      refine iff_of_false ?_ ?_
      · unfold RootReader.findStreamLast
        rw [hprobe]
        exact nofun
      · rintro ⟨_, hof, _⟩
        obtain ⟨probe, hmade⟩ := exists_probe hof
        exact nomatch hprobe.symm.trans hmade
  · intro stream code herror id hid
    obtain ⟨probe, hprobe⟩ := exists_probe hid
    obtain ⟨answer, hanswer, _⟩ := h.findStreamLast_spec hprobe
    exact nomatch herror.symm.trans hanswer

end

/-! ## A root of one page -/

/-- `store`. -/
def store (value width : Nat) : List UInt8 :=
  (List.range width).map fun i => UInt8.ofNat (value / 256 ^ i)

/-- `write_id`. -/
def writeId (value : Nat) : List UInt8 := (store value 16).reverse

/-- `write_retry_entry`. -/
def writeRetryEntry (entry : CompletedRetry) : List UInt8 :=
  writeId entry.id.producer ++ store entry.id.epoch 8 ++ store entry.id.stream 8
    ++ store entry.id.sequence 8 ++ writeId entry.submittedDigest ++ List.replicate 16 0
    ++ writeId entry.originalBinding.topic ++ writeId entry.originalBinding.range
    ++ store entry.originalBinding.routingEpoch 8 ++ writeId entry.originalBinding.segment
    ++ store entry.originalBinding.generation 8 ++ store entry.returnedSpan.begin_ 8
    ++ store entry.returnedSpan.end_ 8 ++ store entry.ackGeneration 8

/-- A batch of one record, of stream 5. -/
def exampleEntry (sequence : Fin (2 ^ 64)) : CompletedRetry :=
  ⟨⟨7, 1, 5, sequence, by decide, by decide, by decide⟩, 9, ⟨2, 3, 1, 4, 1⟩, ⟨0, 1⟩, 1, by decide, rfl,
    by decide⟩

/-- An envelope of a bare prefix, and a digest that counts. -/
def exampleCodec : PageCodec where
  envelope bytes := .ok (32, bytes.drop 32)
  hashExact bytes := bytes.length

theorem sector_pos : 0 < 512 := by decide

theorem sector_most : 512 ≤ 65536 := by decide

def exampleFooter : SealedFooter where
  location := ⟨{ segment := ⟨1, 2, 3, 4, 1⟩, alignment := 512, dataStart := 512, logicalOrigin := 0,
                 physicalOrigin := 0, alignment_pos := sector_pos, logical_fits := Nat.zero_le _,
                 physical_fits := Nat.zero_le _ }, 1024⟩
  retryCount := 2
  pages := [⟨0, 0, 2, 512, 512, by decide, by decide, by decide, by decide, sector_most⟩]
  pages_most := by decide
  in_order := by decide

def examplePin : RootPin where
  root := .sealedFooter exampleFooter
  pageFile := List.replicate 32 0 ++ store 2 2 ++ store 0 2 ++ writeId 1 ++ writeId 2 ++ writeId 3
    ++ writeId 4 ++ store 1 8 ++ store 1024 8 ++ store 0 4 ++ store 0 4 ++ store 2 4 ++ store 60 4
    ++ writeRetryEntry (exampleEntry 0) ++ writeRetryEntry (exampleEntry 1) ++ List.replicate 60 0

def exampleReader : RootReader :=
  ⟨examplePin, ⟨1, [⟨(exampleEntry 0).id, (exampleEntry 1).id⟩]⟩, 2⟩

/-- The reader opens over the page, and the newest entry of the stream is its second. -/
theorem example_lookup : ∃ footer pages, StoredPages exampleCodec {} examplePin footer pages
    ∧ ((∃ page ∈ pages, exampleEntry 1 ∈ page) ∧ RetryPrefix.of (exampleEntry 1).id = ⟨7, 1, 5⟩
      ∧ ∀ page ∈ pages, ∀ other ∈ page, RetryPrefix.of other.id = ⟨7, 1, 5⟩ →
        other.id.sequence ≤ (exampleEntry 1).id.sequence) := by
  have hopen : RootReader.openRoot exampleCodec {} examplePin = .ok exampleReader := by
    decide +kernel
  have hlast : exampleReader.findStreamLast exampleCodec {} ⟨7, 1, 5⟩ = .ok (some (exampleEntry 1)) := by
    decide +kernel
  obtain ⟨footer, pages, hstored, _, hstream, _⟩ :=
    (retry_lookup exampleCodec {} examplePin).2 exampleReader hopen
  exact ⟨footer, pages, hstored, (hstream _ _).mp hlast⟩

end KwaqueStorage.RetryPages
