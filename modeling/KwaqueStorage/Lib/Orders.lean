import Mathlib

/-!
# Strict weak orders, sorted lists and heaps

A comparison that a caller hands over is a strict weak order: irreflexive, transitive, and with its
incomparable pairs an equivalence. Two lists are of use here. A *sorted* one never goes down, and a *strict*
one always goes up. A permutation that is strict is the only one (`Strict.unique`), and there is one exactly
when no two elements are equivalent (`Strict.distinct`).

The sort and the two heap operations of the standard library are known by what they promise and not by what
they do, so they are a structure of operations with their promises. A heap is what the library calls one:
no element passes its parent.
-/

namespace KwaqueStorage.Lib

variable {α β : Type}

/-- A strict weak order. -/
structure WeakOrder (α : Type) where
  less : α → α → Bool
  irrefl : ∀ a, less a a = false
  trans : ∀ {a b c}, less a b = true → less b c = true → less a c = true
  equivalent_trans : ∀ {a b c}, less a b = false → less b a = false → less b c = false →
    less c b = false → less a c = false ∧ less c a = false

namespace WeakOrder

variable (order : WeakOrder α) {a b c : α} {l l' : List α}

theorem asymm (h : order.less a b = true) : order.less b a = false := by
  cases hba : order.less b a with
  | false => rfl
  | true =>
    have hloop := order.trans h hba
    rw [order.irrefl a] at hloop
    cases hloop

/-- What does not go up twice does not go up. -/
theorem not_less_trans (hab : order.less a b = false) (hbc : order.less b c = false) :
    order.less a c = false := by
  cases hac : order.less a c with
  | false => rfl
  | true =>
    cases hba : order.less b a with
    | true =>
      rw [order.trans hba hac] at hbc
      cases hbc
    | false =>
      cases hcb : order.less c b with
      | true =>
        rw [order.trans hac hcb] at hab
        cases hab
      | false =>
        rw [(order.equivalent_trans hab hba hbc hcb).1] at hac
        cases hac

/-- The order the other way round. -/
def dual : WeakOrder α where
  less a b := order.less b a
  irrefl := order.irrefl
  trans hab hbc := order.trans hbc hab
  equivalent_trans hab hba hbc hcb := (order.equivalent_trans hba hab hcb hbc).symm

/-- Values compared by what they stand for. -/
def comap (f : β → α) : WeakOrder β where
  less a b := order.less (f a) (f b)
  irrefl a := order.irrefl (f a)
  trans := order.trans
  equivalent_trans := order.equivalent_trans

/-! ## Sorted, strict and distinct -/

/-- It never goes down. -/
def Sorted (l : List α) : Prop := l.Pairwise fun a b => order.less b a = false

/-- It always goes up. -/
def Strict (l : List α) : Prop := l.Pairwise fun a b => order.less a b = true

/-- No two elements are equivalent. -/
def Distinct (l : List α) : Prop := l.Pairwise fun a b => order.less a b = true ∨ order.less b a = true

variable {order}

theorem Distinct.perm (h : order.Distinct l) (hp : l.Perm l') : order.Distinct l' :=
  hp.pairwise h Or.symm

theorem Strict.distinct (h : order.Strict l) : order.Distinct l :=
  List.Pairwise.imp Or.inl h

/-- **A set of entries has one strict arrangement.** -/
theorem Strict.unique (h : order.Strict l) (h' : order.Strict l') (hp : l.Perm l') : l = l' := by
  refine hp.eq_of_pairwise ?_ h h'
  intro a b _ _ hab hba
  rw [order.asymm hab] at hba
  cases hba

/-- A strict list grows by what passes its last element. -/
theorem Strict.concat (h : order.Strict l) (hlast : ∀ last ∈ l.getLast?, order.less last a = true) :
    order.Strict (l ++ [a]) := by
  refine List.pairwise_append.mpr ⟨h, List.pairwise_singleton _ _, ?_⟩
  intro b hb c hc
  rw [List.mem_singleton.mp hc]
  rcases List.eq_nil_or_concat' l with rfl | ⟨front, last, rfl⟩
  · cases hb
  · have hl : order.less last a = true := hlast last (by simp)
    rcases List.mem_append.mp hb with hb | hb
    · exact order.trans ((List.pairwise_append.mp h).2.2 b hb last (by simp)) hl
    · rw [List.mem_singleton.mp hb]
      exact hl

/-- Two equivalent elements anywhere are enough. -/
theorem not_distinct_of_mem {front back : List α} (ha : a ∈ front) (hb : b ∈ back)
    (hab : order.less a b = false) (hba : order.less b a = false) : ¬ order.Distinct (front ++ back) := by
  intro h
  rcases (List.pairwise_append.mp h).2.2 a ha b hb with hless | hless
  · rw [hab] at hless
    cases hless
  · rw [hba] at hless
    cases hless

/-! ## Heaps -/

variable (order) in
/-- `std::is_heap`. -/
def IsHeap (l : List α) : Prop :=
  ∀ i parent child, l[(i - 1) / 2]? = some parent → l[i]? = some child → order.less parent child = false

/-- **The front of a heap is a greatest element.** -/
theorem IsHeap.front (h : order.IsHeap (a :: l)) : ∀ b ∈ a :: l, order.less a b = false := by
  intro b hb
  obtain ⟨i, hi⟩ := List.mem_iff_getElem?.mp hb
  clear hb
  -- up the parents, which are nearer to the front
  induction i using Nat.strongRecOn generalizing b with
  | ind i ih =>
    cases i with
    | zero =>
      rw [List.getElem?_cons_zero, Option.some.injEq] at hi
      rw [hi]
      exact order.irrefl b
    | succ i =>
      have hlt : (i + 1 - 1) / 2 < (a :: l).length := by
        have := (List.getElem?_eq_some_iff.mp hi).1
        omega
      obtain ⟨parent, hparent⟩ : ∃ parent, (a :: l)[(i + 1 - 1) / 2]? = some parent :=
        ⟨_, List.getElem?_eq_getElem hlt⟩
      exact order.not_less_trans (ih _ (by omega) parent hparent) (h _ _ _ hparent hi)

theorem IsHeap.nil : order.IsHeap [] := by
  intro i parent child hparent _
  cases hparent

/-- What never goes up is a heap. -/
theorem isHeap_of_sorted (h : order.dual.Sorted l) : order.IsHeap l := by
  intro i parent child hparent hchild
  obtain ⟨hp, rfl⟩ := List.getElem?_eq_some_iff.mp hparent
  obtain ⟨hc, rfl⟩ := List.getElem?_eq_some_iff.mp hchild
  rcases Nat.lt_or_ge ((i - 1) / 2) i with hlt | hge
  · exact List.pairwise_iff_getElem.mp h _ _ hp hc hlt
  · have hzero : (i - 1) / 2 = i := by omega
    simp only [hzero]
    exact order.irrefl _

end WeakOrder

/-! ## The library -/

/-- `std::sort`, `std::push_heap` and `std::pop_heap`, with what they promise. -/
structure Algorithms where
  sort : {α : Type} → WeakOrder α → List α → List α
  sort_perm : ∀ {α : Type} (order : WeakOrder α) (l : List α), (sort order l).Perm l
  sort_sorted : ∀ {α : Type} (order : WeakOrder α) (l : List α), order.Sorted (sort order l)
  /-- The last element joins the heap before it. -/
  pushHeap : {α : Type} → WeakOrder α → List α → List α
  pushHeap_perm : ∀ {α : Type} (order : WeakOrder α) (l : List α) (a : α), order.IsHeap l →
    (pushHeap order (l ++ [a])).Perm (l ++ [a])
  pushHeap_heap : ∀ {α : Type} (order : WeakOrder α) (l : List α) (a : α), order.IsHeap l →
    order.IsHeap (pushHeap order (l ++ [a]))
  /-- The front goes to the end, and what is before it is a heap again. -/
  popHeap : {α : Type} → WeakOrder α → List α → List α
  popHeap_eq : ∀ {α : Type} (order : WeakOrder α) (a : α) (l : List α), order.IsHeap (a :: l) →
    ∃ rest, popHeap order (a :: l) = rest ++ [a] ∧ rest.Perm l ∧ order.IsHeap rest

namespace Algorithms

theorem mergeSort_sorted (order : WeakOrder α) (l : List α) :
    order.Sorted (l.mergeSort fun a b => !order.less b a) := by
  have h : (l.mergeSort fun a b => !order.less b a).Pairwise fun a b => (!order.less b a) = true := by
    refine List.pairwise_mergeSort ?_ ?_ l
    · intro a b c hab hbc
      rw [Bool.not_eq_true'] at hab hbc ⊢
      exact order.not_less_trans hbc hab
    · intro a b
      cases hba : order.less b a with
      | false => rfl
      | true =>
        rw [order.asymm hba]
        rfl
  refine List.Pairwise.imp ?_ h
  intro a b hab
  exact Bool.not_eq_true' _ ▸ hab

/-- A library that keeps its heaps sorted. -/
def merging : Algorithms where
  sort order l := l.mergeSort fun a b => !order.less b a
  sort_perm _ l := List.mergeSort_perm l _
  sort_sorted := mergeSort_sorted
  pushHeap order l := l.mergeSort fun a b => !order.dual.less b a
  pushHeap_perm _ _ _ _ := List.mergeSort_perm _ _
  pushHeap_heap order _ _ _ := WeakOrder.isHeap_of_sorted (mergeSort_sorted order.dual _)
  popHeap order l := l.tail.mergeSort (fun a b => !order.dual.less b a) ++ l.head?.toList
  popHeap_eq order _ _ _ :=
    ⟨_, rfl, List.mergeSort_perm _ _, WeakOrder.isHeap_of_sorted (mergeSort_sorted order.dual _)⟩

end Algorithms

end KwaqueStorage.Lib
