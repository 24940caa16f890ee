import KwaqueStorage.Index.Sparse
import KwaqueStorage.Lib.Search
import KwaqueStorage.Lib.Runs
import KwaqueStorage.Lib.Checks

/-!
# Looking up an anchor

The same search is made in three places: over the durable anchors of an index in memory, a table in chunks;
over the first anchors of the pages of a published one, which routes to a page; and over the anchors of that
page. What each finds is held here against a walk over all anchors in order, that knows nothing of chunks or
pages.
-/

namespace KwaqueStorage.Index

open Lib

/-- `sparse_index_position`. -/
structure Position where
  anchor : Entry
  end_ : Nat
  deriving DecidableEq

/-- `find_sparse_index_anchor`. -/
def findSparseIndexAnchor (anchors : List Entry) (target end_ : Nat) : Option Position :=
  let after := upperBound (past Entry.anchor target anchors) 0 anchors.length
  if after = 0 then none
  else anchors[after - 1]?.map fun anchor =>
    ⟨anchor, if after = anchors.length then end_ else (anchors[after]?.map Entry.position).getD end_⟩

/-- `find_sparse_index_page`. -/
def findSparseIndexPage (firstAnchors : List Nat) (target : Nat) : Option Nat :=
  let after := upperBound (past id target firstAnchors) 0 firstAnchors.length
  if after = 0 then none else some (after - 1)

/-! ## In a published index -/

/-- `sparse_index_root`, as far as a lookup reads it. -/
structure IndexRoot where
  context : IndexContext
  firstAnchors : List Nat
  deriving DecidableEq

/-- `route_published_anchor`, through a pin whose metadata is an index root or something else. -/
def routePublishedAnchor (metadata : Option IndexRoot) (target : Nat) : Except Errc (Option Nat) :=
  match metadata with
  | none => .error .wrongContext
  | some root => .ok (findSparseIndexPage root.firstAnchors target)

/-- `search_published_page`. -/
def searchPublishedPage (metadata : Option IndexRoot) (ordinal : Nat) (page : List Entry) (target : Nat) :
    Except Errc (Option Position) :=
  match metadata with
  | none => .error .wrongContext
  | some root =>
    match root.firstAnchors[ordinal]? with
    | none => .error .wrongContext
    | some first =>
      if page.head?.map Entry.anchor = some first then
        .ok (findSparseIndexAnchor page target root.context.coverage.bytes.end_)
      else .error .malformedData

/-- `find_published_anchor`. What reading a page answers is the pin's. -/
def findPublishedAnchor (metadata : Option IndexRoot) (readIndex : Nat → Except Errc (List Entry)) (target : Nat) :
    Except Errc (Option Position) := do
  match ← routePublishedAnchor metadata target with
  | none => return none
  | some ordinal => searchPublishedPage metadata ordinal (← readIndex ordinal) target

/-! ## In memory -/

namespace SparseIndex

/-- `chosen`: an entry in its chunk. -/
def chosenAt (i : SparseIndex) (entry : Nat) : Option Entry :=
  ((i.entries.drop (entry / pageEntries * pageEntries)).take pageEntries)[entry % pageEntries]?

/-- `upto`. -/
def upto (i : SparseIndex) (target : Nat) : Nat :=
  upperBound (fun anchor => (i.chosenAt anchor).any fun e => decide (target < e.anchor)) 0 i.anchors

/-- `find`. -/
def find (i : SparseIndex) (target end_ : Nat) : Option Position :=
  let before := i.upto target
  if before = 0 then none
  else (i.chosenAt (before - 1)).map fun anchor =>
    ⟨anchor, if before = i.anchors then end_ else ((i.chosenAt before).map Entry.position).getD end_⟩

/-- `after`. -/
def after (i : SparseIndex) (target : Nat) : Option Entry :=
  let before := i.upto target
  if before = i.anchors then none else i.chosenAt before

end SparseIndex

/-! ## A walk over all anchors -/

/-- The last anchor at or before an offset. -/
def lastUpTo (anchors : List Entry) (target : Nat) : Option Entry :=
  (anchors.filter fun e => decide (e.anchor ≤ target)).getLast?

/-- The first anchor past an offset. -/
def firstPast (anchors : List Entry) (target : Nat) : Option Entry :=
  anchors.find? fun e => decide (target < e.anchor)

/-- The answer of a lookup, by walking. -/
def walked (anchors : List Entry) (target end_ : Nat) : Option Position :=
  (lastUpTo anchors target).map fun anchor => ⟨anchor, ((firstPast anchors target).map Entry.position).getD end_⟩

section Walks

variable {anchors : List Entry} {target end_ : Nat}

/-- What stands around the place a search finds. -/
theorem around_upTo (h : Ordered Entry.anchor anchors) :
    (∀ n, (upTo Entry.anchor target anchors).length = n + 1 → anchors[n]? = lastUpTo anchors target)
      ∧ anchors[(upTo Entry.anchor target anchors).length]? = firstPast anchors target := by
  have hsplit : upTo Entry.anchor target anchors ++ above Entry.anchor target anchors = anchors := upTo_append_above
  refine ⟨?_, ?_⟩
  · intro n hn
    unfold lastUpTo
    rw [← h.upTo_eq_filter, List.getLast?_eq_getElem?, hn, Nat.add_sub_cancel]
    have hleft : (upTo Entry.anchor target anchors ++ above Entry.anchor target anchors)[n]?
        = (upTo Entry.anchor target anchors)[n]? := List.getElem?_append_left (by omega)
    rwa [hsplit] at hleft
  · unfold firstPast
    rw [← above_head?_eq_find?, List.head?_eq_getElem?, ← Nat.sub_self (upTo Entry.anchor target anchors).length,
      ← List.getElem?_append_right (Nat.le_refl _), hsplit]

theorem lastUpTo_eq_none (h : Ordered Entry.anchor anchors)
    (hzero : (upTo Entry.anchor target anchors).length = 0) : lastUpTo anchors target = none := by
  unfold lastUpTo
  rw [← h.upTo_eq_filter, List.length_eq_zero_iff.mp hzero]
  rfl

theorem firstPast_eq_none (h : Ordered Entry.anchor anchors)
    (hall : (upTo Entry.anchor target anchors).length = anchors.length) : firstPast anchors target = none := by
  rw [← (around_upTo h).2, hall]
  exact List.getElem?_eq_none (Nat.le_refl _)

/-- **A search answers what a walk does**, over anchors in order. -/
theorem findSparseIndexAnchor_eq (h : Ordered Entry.anchor anchors) :
    findSparseIndexAnchor anchors target end_ = walked anchors target end_ := by
  unfold findSparseIndexAnchor walked
  rw [h.upperBound_eq]
  dsimp only
  split
  next hzero => rw [lastUpTo_eq_none h hzero, Option.map_none]
  next hsome =>
    obtain ⟨n, hn⟩ := Nat.exists_eq_succ_of_ne_zero hsome
    have hlast : anchors[(upTo Entry.anchor target anchors).length - 1]? = lastUpTo anchors target := by
      rw [hn, Nat.succ_sub_one]
      exact (around_upTo h).1 n hn
    rw [hlast, (around_upTo h).2]
    split
    next hall => rw [firstPast_eq_none h hall, Option.map_none, Option.getD_none]
    next => rfl

end Walks

/-! ## The index in memory -/

namespace SparseIndex

/-- What is done to an index. -/
inductive Fed
  | admit_ (blocks : Nat) (budget : Budget)
  | written (block : Coverage) (allocates : Bool)
  | durable (end_ : Nat)
  | freeze

/-- An index from when it is made. -/
def system (stride : Stride) (capacity : Nat) : System SparseIndex Fed where
  init i := ∃ b b', make stride capacity b = .ok (i, b')
  step i
    | .admit_ blocks budget => some (i.admit_ blocks budget).2.1
    | .written block allocates => some (i.written block allocates).2
    | .durable end_ => some (i.durable end_)
    | .freeze => some i.freeze

variable {i i' : SparseIndex} {block : Coverage} {allocates : Bool} {target end_ : Nat}

/-- An entry's place in its chunk is its place in the table. -/
theorem chosenAt_eq (i : SparseIndex) (n : Nat) : i.chosenAt n = i.entries[n]? := by
  unfold chosenAt
  have hlt : n % pageEntries < pageEntries := Nat.mod_lt _ (by decide)
  have hplace : n / pageEntries * pageEntries + n % pageEntries = n := Nat.div_add_mod' n pageEntries
  rw [List.getElem?_take_of_lt hlt, List.getElem?_drop, hplace]

/-- **The table is in order**, and its anchors are its first entries. -/
structure Arranged (i : SparseIndex) : Prop where
  ordered : Ordered Entry.anchor i.entries
  anchors : i.anchors ≤ i.entries.length

theorem check_fired {id : IndexInvariant} {held : Bool} (h : (i.check id held).fired = []) :
    i.fired = [] ∧ held = true := by
  unfold check at h
  cases held with
  | true => exact ⟨h, rfl⟩
  | false => exact absurd h (List.append_ne_nil_of_right_ne_nil _ (List.cons_ne_nil _ _))

/-- What a block may do to the table: nothing, or it comes last, past the entry before it. -/
structure Extends (i i' : SparseIndex) (block : Coverage) : Prop where
  fired : i'.fired = [] → i.fired = []
  anchors : i'.anchors = i.anchors
  entries : i'.entries = i.entries
    ∨ i'.entries = i.entries ++ [⟨block.logical.begin_, block.bytes.begin_⟩]
      ∧ (i'.fired = [] → ∀ e ∈ i.entries.getLast?, e.anchor < block.logical.begin_)

theorem Extends.trans_same {i₁ : SparseIndex} (hfired : i₁.fired = [] → i.fired = []) (hanchors : i₁.anchors = i.anchors)
    (hentries : i₁.entries = i.entries) (h : Extends i₁ i' block) : Extends i i' block :=
  ⟨fun h' => hfired (h.fired h'), h.anchors.trans hanchors, hentries ▸ h.entries⟩

theorem choose_extends : Extends i (i.choose block allocates).2 block := by
  unfold choose
  dsimp only
  split
  · exact ⟨fun h => (check_fired h).1, rfl, .inl rfl⟩
  · split
    · exact ⟨fun h => (check_fired h).1, rfl, .inl rfl⟩
    · refine ⟨fun h => (check_fired h).1, rfl, .inr ⟨rfl, ?_⟩⟩
      intro h e he
      have hall := (check_fired h).2
      rw [he, Option.all_some] at hall
      exact of_decide_eq_true hall

theorem offer_fired (h : (i.offer block).fired = []) : i.fired = [] := by
  unfold offer at h
  exact (check_fired (check_fired h).1).1

theorem written_extends : Extends i (i.written block allocates).2 block := by
  unfold written
  dsimp only
  split
  · exact ⟨offer_fired, rfl, .inl rfl⟩
  · split
    · exact ⟨fun h => offer_fired (check_fired h).1, rfl, .inl rfl⟩
    · exact choose_extends.trans_same (fun h => offer_fired (check_fired h).1) rfl rfl

theorem Arranged.extends_ (h : i.Arranged) (hextends : Extends i i' block) (hfired : i'.fired = []) : i'.Arranged := by
  rcases hextends.entries with hsame | ⟨hnew, hlast⟩
  · exact ⟨hsame ▸ h.ordered, by rw [hextends.anchors, hsame]; exact h.anchors⟩
  · refine ⟨?_, ?_⟩
    · rw [hnew]
      refine Ordered.append_iff.mpr ⟨h.ordered, List.pairwise_singleton _ _, ?_⟩
      intro x hx y hy
      cases hy
      exact hlast hfired x hx
    · rw [hextends.anchors, hnew, List.length_append]
      exact Nat.le_add_right_of_le h.anchors

theorem admit_entries {blocks : Nat} {budget : Budget} :
    (i.admit_ blocks budget).2.1.entries = i.entries ∧ (i.admit_ blocks budget).2.1.anchors = i.anchors
      ∧ (i.admit_ blocks budget).2.1.fired = i.fired := by
  have hloop : ∀ (wanted fuel : Nat) (i : SparseIndex) (b : Budget),
      (admitChunks wanted fuel i b).2.1.entries = i.entries ∧ (admitChunks wanted fuel i b).2.1.anchors = i.anchors
        ∧ (admitChunks wanted fuel i b).2.1.fired = i.fired := by
    intro wanted fuel
    induction fuel with
    | zero => exact fun _ _ => ⟨rfl, rfl, rfl⟩
    | succ fuel ih =>
      intro i b
      rw [admitChunks]
      split
      next =>
        dsimp only
        split
        next => exact ⟨rfl, rfl, rfl⟩
        next =>
          split
          next => exact ⟨rfl, rfl, rfl⟩
          next => exact ih _ _
      next => exact ⟨rfl, rfl, rfl⟩
  unfold admit_
  split
  next => exact ⟨rfl, rfl, rfl⟩
  next =>
    have hchunks := hloop (min i.capacity (i.chosen + i.promised + blocks))
      (min i.capacity (i.chosen + i.promised + blocks) - i.admitted) i budget
    dsimp only
    split
    next heq => rwa [heq] at hchunks
    next heq => rwa [heq] at hchunks

theorem Arranged.durable (h : i.Arranged) : (i.durable end_).Arranged := by
  have hlength : ((i.entries.drop i.anchors).takeWhile fun e => decide (e.position < end_)).length
      ≤ (i.entries.drop i.anchors).length := (List.takeWhile_prefix _).length_le
  rw [List.length_drop] at hlength
  have hanchors := h.anchors
  refine ⟨h.ordered, ?_⟩
  show i.anchors + ((i.entries.drop i.anchors).takeWhile fun e => decide (e.position < end_)).length
    ≤ i.entries.length
  omega

/-- An index in which no invariant fired is arranged. -/
theorem arranged_of_reachable {stride : Stride} {capacity : Nat} (h : (system stride capacity).Reachable i)
    (hfired : i.fired = []) : i.Arranged := by
  have hall : i.fired = [] → i.Arranged := by
    refine @System.Run.invariant _ _ _ _ (fun i : SparseIndex => i.fired = [] → i.Arranged) ?_ ?_ _ h
    · rintro s ⟨b, b', hmake⟩ _
      obtain ⟨total, _, hmake⟩ := bind_eq_ok.mp hmake
      obtain ⟨⟨held, b₁⟩, _, hmade⟩ := bind_eq_ok.mp hmake
      cases hmade
      exact ⟨.nil, Nat.le_refl _⟩
    · intro s a s' _ ih _ hstep hfired'
      cases a with
      | admit_ blocks budget =>
        cases hstep
        obtain ⟨hentries, hanchors, hsame⟩ := @admit_entries s blocks budget
        obtain ⟨hordered, hle⟩ := ih (hsame ▸ hfired')
        exact ⟨hentries ▸ hordered, by rw [hanchors, hentries]; exact hle⟩
      | written block allocates =>
        cases hstep
        have hextends : Extends s (s.written block allocates).2 block := written_extends
        exact (ih (hextends.fired hfired')).extends_ hextends hfired'
      | durable end_ =>
        cases hstep
        exact (ih (check_fired hfired').1).durable
      | freeze =>
        cases hstep
        exact ⟨(ih hfired').ordered, (ih hfired').anchors⟩
  exact hall hfired

theorem Arranged.length_anchorList (h : i.Arranged) : i.anchorList.length = i.anchors := by
  unfold anchorList
  rw [List.length_take, Nat.min_eq_left h.anchors]

theorem Arranged.ordered_anchorList (h : i.Arranged) : Ordered Entry.anchor i.anchorList :=
  h.ordered.sublist (List.take_sublist _ _)

theorem anchorList_get {n : Nat} (hn : n < i.anchors) : i.anchorList[n]? = i.chosenAt n := by
  rw [chosenAt_eq]
  exact List.getElem?_take_of_lt hn

/-- The search over the durable part of the table is one over its anchors. -/
theorem Arranged.upto_eq (h : i.Arranged) : i.upto target = (upTo Entry.anchor target i.anchorList).length := by
  rw [← h.ordered_anchorList.upperBound_eq, h.length_anchorList]
  unfold upto
  refine upperBound_congr fun n _ hn => ?_
  unfold past
  rw [anchorList_get (by omega)]

theorem Arranged.find_eq (h : i.Arranged) : i.find target end_ = walked i.anchorList target end_ := by
  rw [← findSparseIndexAnchor_eq h.ordered_anchorList]
  unfold SparseIndex.find findSparseIndexAnchor
  rw [h.upto_eq, h.ordered_anchorList.upperBound_eq, h.length_anchorList]
  have hle : (upTo Entry.anchor target i.anchorList).length ≤ i.anchors :=
    h.length_anchorList ▸ (List.takeWhile_prefix _).length_le
  dsimp only
  split
  next => rfl
  next hsome =>
    have hlast : i.anchorList[(upTo Entry.anchor target i.anchorList).length - 1]?
        = i.chosenAt ((upTo Entry.anchor target i.anchorList).length - 1) := anchorList_get (by omega)
    rw [hlast]
    split
    next => rfl
    next hmore =>
      have hnext : i.anchorList[(upTo Entry.anchor target i.anchorList).length]?
          = i.chosenAt (upTo Entry.anchor target i.anchorList).length := anchorList_get (by omega)
      rw [hnext]

theorem Arranged.after_eq (h : i.Arranged) : i.after target = firstPast i.anchorList target := by
  unfold SparseIndex.after
  rw [h.upto_eq]
  dsimp only
  split
  next hall => rw [firstPast_eq_none h.ordered_anchorList (hall.trans h.length_anchorList.symm)]
  next hmore =>
    have hle : (upTo Entry.anchor target i.anchorList).length ≤ i.anchors :=
      h.length_anchorList ▸ (List.takeWhile_prefix _).length_le
    rw [← anchorList_get (by omega)]
    exact (around_upTo h.ordered_anchorList).2

end SparseIndex

end KwaqueStorage.Index
