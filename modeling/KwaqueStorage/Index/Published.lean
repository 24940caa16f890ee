import KwaqueStorage.Index.Route
import KwaqueStorage.Index.Rebuild

/-!
# A published index

A published index is its pages and a root that names the anchor each page begins with. A lookup reads one page
of it. That page is enough: the last anchor at or before an offset is in the last page that does not begin
past it.
-/

namespace KwaqueStorage.Index

open Lib

/-! ## Pages and their root -/

/-- An index as it is published, and as its root and its pages are decoded: pages that hold something, in order
    together, and no anchor exactly where nothing is covered. -/
structure Published where
  context : IndexContext
  pages : List (List Entry)
  filled : ∀ page ∈ pages, page ≠ []
  ordered : Ordered Entry.anchor pages.flatten
  counted : pages.flatten = [] ↔ context.coverage.physical.isEmpty = true

namespace Published

/-- All its anchors. -/
def anchors (p : Published) : List Entry := p.pages.flatten

/-- The anchor a page begins with. -/
def first (page : List Entry) : Nat := (page.head?.map Entry.anchor).getD 0

/-- Its root. -/
def root (p : Published) : IndexRoot := ⟨p.context, p.pages.map first⟩

variable {p : Published} {page : List Entry} {target : Nat}

theorem head_first (h : page ≠ []) : page.head?.map Entry.anchor = some (first page) := by
  cases page with
  | nil => exact absurd rfl h
  | cons e rest => rfl

/-- A page begins with its least anchor. -/
theorem first_le (h : Ordered Entry.anchor page) {e : Entry} (he : e ∈ page) : first page ≤ e.anchor := by
  cases page with
  | nil => cases he
  | cons x rest => exact h.head_le rfl he

theorem ordered_page (p : Published) (h : page ∈ p.pages) : Ordered Entry.anchor page :=
  p.ordered.sublist (List.sublist_flatten_of_mem h)

/-- The pages begin in order. -/
theorem ordered_firsts (pages : List (List Entry)) (hfilled : ∀ page ∈ pages, page ≠ [])
    (hordered : Ordered Entry.anchor pages.flatten) : Ordered id (pages.map first) := by
  induction pages with
  | nil => exact .nil
  | cons page rest ih =>
    rw [List.flatten_cons] at hordered
    obtain ⟨hpage, hrest, hbetween⟩ := List.pairwise_append.mp hordered
    refine List.pairwise_cons.mpr ⟨?_, ih (fun q hq => hfilled q (List.mem_cons_of_mem _ hq)) hrest⟩
    intro k hk
    obtain ⟨later, hlater, rfl⟩ := List.mem_map.mp hk
    obtain ⟨e, he⟩ := List.exists_mem_of_ne_nil _ (hfilled later (List.mem_cons_of_mem _ hlater))
    cases hpageEq : page with
    | nil => exact absurd hpageEq (hfilled page (List.mem_cons_self ..))
    | cons x xs =>
      cases hlaterEq : later with
      | nil => exact absurd hlaterEq (hfilled later (List.mem_cons_of_mem _ hlater))
      | cons y ys =>
        refine hbetween x (hpageEq ▸ List.mem_cons_self ..) y (List.mem_flatten.mpr ⟨later, hlater, ?_⟩)
        rw [hlaterEq]
        exact List.mem_cons_self ..

theorem lastUpTo_append {before after : List Entry} :
    lastUpTo (before ++ after) target = (lastUpTo after target).or (lastUpTo before target) := by
  unfold lastUpTo
  rw [List.filter_append, List.getLast?_append]

/-- **Routing.** The offset lies before every anchor, or the page routed to holds the last anchor at or before
    it. -/
theorem route_spec (p : Published) (target : Nat) :
    (findSparseIndexPage p.root.firstAnchors target = none ∧ lastUpTo p.anchors target = none)
      ∨ ∃ ordinal page anchor, findSparseIndexPage p.root.firstAnchors target = some ordinal
        ∧ p.pages[ordinal]? = some page ∧ anchor ∈ page ∧ lastUpTo page target = some anchor
        ∧ lastUpTo p.anchors target = some anchor := by
  have hfirsts : Ordered id (p.pages.map first) := ordered_firsts p.pages p.filled p.ordered
  have hsplit : upTo id target (p.pages.map first) ++ above id target (p.pages.map first) = p.pages.map first :=
    upTo_append_above
  have hfind : findSparseIndexPage p.root.firstAnchors target
      = if (upTo id target (p.pages.map first)).length = 0 then none
        else some ((upTo id target (p.pages.map first)).length - 1) := by
    have hsearch : upperBound (past id target p.root.firstAnchors) 0 p.root.firstAnchors.length
        = (upTo id target (p.pages.map first)).length := hfirsts.upperBound_eq
    unfold findSparseIndexPage
    dsimp only
    rw [hsearch]
  generalize hn : (upTo id target (p.pages.map first)).length = n at hfind
  -- the pages that begin past the offset hold nothing at or before it
  have hbeyond : lastUpTo (p.pages.drop n).flatten target = none := by
    unfold lastUpTo
    rw [List.filter_eq_nil_iff.mpr, List.getLast?_nil]
    intro e he
    obtain ⟨page, hpage, he⟩ := List.mem_flatten.mp he
    have hmem : first page ∈ above id target (p.pages.map first) := by
      have hdrop : (p.pages.map first).drop n = above id target (p.pages.map first) := by
        have hleft : (upTo id target (p.pages.map first) ++ above id target (p.pages.map first)).drop
            (upTo id target (p.pages.map first)).length = above id target (p.pages.map first) := List.drop_left
        rwa [hsplit, hn] at hleft
      rw [← hdrop, ← List.map_drop]
      exact List.mem_map_of_mem hpage
    have hlt : target < first page := hfirsts.lt_of_mem_above hmem
    have hle := first_le (p.ordered_page (List.mem_of_mem_drop hpage)) he
    rw [decide_eq_true_iff]
    omega
  have hanchors : lastUpTo p.anchors target = lastUpTo (p.pages.take n).flatten target := by
    unfold anchors
    rw [← List.take_append_drop n p.pages, List.flatten_append, lastUpTo_append, List.take_append_drop, hbeyond]
    rfl
  cases n with
  | zero =>
    left
    rw [hfind, hanchors, List.take_zero]
    exact ⟨rfl, rfl⟩
  | succ m =>
    right
    have hlength : m < p.pages.length := by
      have hle : (upTo id target (p.pages.map first)).length ≤ (p.pages.map first).length :=
        (List.takeWhile_prefix _).length_le
      rw [hn, List.length_map] at hle
      omega
    have hpage : p.pages[m]? = some p.pages[m] := List.getElem?_eq_getElem hlength
    have hmem : p.pages[m] ∈ p.pages := List.getElem_mem hlength
    have hbegins : first p.pages[m] ≤ target := by
      have hin : (upTo id target (p.pages.map first))[m]? = some (first p.pages[m]) := by
        have hleft : (upTo id target (p.pages.map first) ++ above id target (p.pages.map first))[m]?
            = (upTo id target (p.pages.map first))[m]? := List.getElem?_append_left (by omega)
        rw [← hleft, hsplit, List.getElem?_map, hpage, Option.map_some]
      have hmem' : first p.pages[m] ∈ upTo id target (p.pages.map first) := List.mem_of_getElem? hin
      have hle : id (first p.pages[m]) ≤ target := le_of_mem_upTo hmem'
      exact hle
    have hsome : ∃ anchor, lastUpTo p.pages[m] target = some anchor := by
      cases heq : p.pages[m] with
      | nil => exact absurd heq (p.filled _ hmem)
      | cons e rest =>
        rw [heq] at hbegins
        have hin : e ∈ (e :: rest).filter fun e => decide (e.anchor ≤ target) :=
          List.mem_filter.mpr ⟨List.mem_cons_self .., decide_eq_true hbegins⟩
        exact Option.isSome_iff_exists.mp (List.getLast?_isSome.mpr (List.ne_nil_of_mem hin))
    obtain ⟨anchor, hanchor⟩ := hsome
    refine ⟨m, p.pages[m], anchor, hfind, hpage, ?_, hanchor, ?_⟩
    · exact (List.mem_filter.mp (List.mem_of_getLast? hanchor)).1
    · rw [hanchors, List.take_add_one, hpage, Option.toList_some, List.flatten_append, List.flatten_singleton,
        lastUpTo_append, hanchor, Option.some_or]

/-- **The lookup in a published index**, where a page that can be read is the page its root pins. -/
theorem find_spec (p : Published) {readIndex : Nat → Except Errc (List Entry)}
    (hread : ∀ ordinal page, readIndex ordinal = .ok page → p.pages[ordinal]? = some page) (target : Nat) :
    (lastUpTo p.anchors target = none ∧ findPublishedAnchor (some p.root) readIndex target = .ok none)
      ∨ ∃ ordinal page anchor, findSparseIndexPage p.root.firstAnchors target = some ordinal
        ∧ p.pages[ordinal]? = some page ∧ anchor ∈ page ∧ lastUpTo p.anchors target = some anchor
        ∧ findPublishedAnchor (some p.root) readIndex target = (readIndex ordinal).map fun _ =>
          some ⟨anchor, ((firstPast page target).map Entry.position).getD p.context.coverage.bytes.end_⟩ := by
  rcases p.route_spec target with ⟨hroute, hnone⟩ | ⟨ordinal, page, anchor, hroute, hpage, hmem, hin, hlast⟩
  · left
    refine ⟨hnone, ?_⟩
    have hrouted : routePublishedAnchor (some p.root) target = .ok none := congrArg Except.ok hroute
    unfold findPublishedAnchor
    rw [hrouted]
    rfl
  · right
    refine ⟨ordinal, page, anchor, hroute, hpage, hmem, hlast, ?_⟩
    have hrouted : routePublishedAnchor (some p.root) target = .ok (some ordinal) := congrArg Except.ok hroute
    unfold findPublishedAnchor
    rw [hrouted]
    show (readIndex ordinal >>= fun page => searchPublishedPage (some p.root) ordinal page target) = _
    cases hreads : readIndex ordinal with
    | error code => rfl
    | ok page' =>
      obtain rfl : page = page' := Option.some.inj (hpage.symm.trans (hread ordinal page' hreads))
      have hfilled : page ≠ [] := List.ne_nil_of_mem hmem
      have hfirst : p.root.firstAnchors[ordinal]? = some (first page) := by
        show (p.pages.map first)[ordinal]? = some (first page)
        rw [List.getElem?_map, hpage, Option.map_some]
      show searchPublishedPage (some p.root) ordinal page target = _
      unfold searchPublishedPage
      dsimp only
      rw [hfirst]
      dsimp only
      rw [if_pos (head_first hfilled), findSparseIndexAnchor_eq (p.ordered_page (List.mem_of_getElem? hpage))]
      unfold walked
      rw [hin]
      rfl

end Published

/-! ## The pages of an index in memory -/

/-- Runs of one width, one after another, are all there is. -/
theorem flatten_runs {width : Nat} (hwidth : 0 < width) (l : List Entry) :
    ((List.range ((l.length + width - 1) / width)).map fun o => (l.drop (o * width)).take width).flatten = l := by
  generalize hn : (l.length + width - 1) / width = n
  induction n generalizing l with
  | zero =>
    have hlt : l.length + width - 1 < width := (Nat.div_eq_zero_iff_lt hwidth).mp hn
    have hnil : l = [] := List.length_eq_zero_iff.mp (by omega)
    rw [hnil]
    rfl
  | succ n ih =>
    have hrest : ((l.drop width).length + width - 1) / width = n := by
      rw [List.length_drop]
      have hge : width ≤ l.length + width - 1 := by
        by_contra hlt
        rw [Nat.div_eq_of_lt (by omega)] at hn
        cases hn
      have hsub : (l.length + width - 1 - width) / width = n := by
        rw [Nat.div_eq_sub_div hwidth hge, Nat.succ.injEq] at hn
        exact hn
      by_cases hlong : width ≤ l.length
      · have heq : l.length - width + width - 1 = l.length + width - 1 - width := by omega
        rw [heq]
        exact hsub
      · have hzero : n = 0 := by
          rw [Nat.div_eq_of_lt (by omega)] at hsub
          exact hsub.symm
        rw [hzero]
        exact Nat.div_eq_of_lt (by omega)
    have hshift : ∀ o, (l.drop ((o + 1) * width)).take width = ((l.drop width).drop (o * width)).take width := by
      intro o
      rw [List.drop_drop, Nat.add_mul, Nat.one_mul, Nat.add_comm]
    rw [List.range_succ_eq_map, List.map_cons, List.map_map, List.flatten_cons, Nat.zero_mul, List.drop_zero]
    have hmap : List.map ((fun o => (l.drop (o * width)).take width) ∘ Nat.succ) (List.range n)
        = (List.range n).map fun o => ((l.drop width).drop (o * width)).take width :=
      List.map_congr_left fun o _ => hshift o
    rw [hmap, ih _ hrest, List.take_append_drop]

namespace SparseIndex

variable {i : SparseIndex}

/-- **The pages of an index are its anchors**, and each holds something. -/
theorem Arranged.pages_flatten (h : i.Arranged) : ((List.range i.pages).map i.page).flatten = i.anchorList := by
  have hpage : i.page = fun o => (i.anchorList.drop (o * pageEntries)).take pageEntries := funext i.page_eq
  unfold pages
  rw [hpage, ← h.length_anchorList]
  exact flatten_runs (by decide) i.anchorList

theorem Arranged.page_filled (h : i.Arranged) {ordinal : Nat} (hlt : ordinal < i.pages) : i.page ordinal ≠ [] := by
  intro hnil
  have hlength := congrArg List.length hnil
  rw [i.page_eq, List.length_take, List.length_drop, h.length_anchorList, List.length_nil] at hlength
  have hpage : 0 < pageEntries := by decide
  have hle : (ordinal + 1) * pageEntries ≤ i.anchors + pageEntries - 1 := by
    unfold pages at hlt
    exact (Nat.le_div_iff_mul_le hpage).mp hlt
  rw [Nat.add_mul, Nat.one_mul] at hle
  omega

/-- The index as its publication would hold it. -/
def Arranged.publish (h : i.Arranged) (context : IndexContext)
    (hcounted : i.anchorList = [] ↔ context.coverage.physical.isEmpty = true) : Published where
  context
  pages := (List.range i.pages).map i.page
  filled := by
    intro page hpage
    obtain ⟨ordinal, hordinal, rfl⟩ := List.mem_map.mp hpage
    exact h.page_filled (List.mem_range.mp hordinal)
  ordered := h.pages_flatten.symm ▸ h.ordered_anchorList
  counted := h.pages_flatten.symm ▸ hcounted

end SparseIndex

end KwaqueStorage.Index
