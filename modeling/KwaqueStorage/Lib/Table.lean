import Mathlib

/-!
# Tables kept in order

A table is a list that is kept strictly increasing in a key. It is looked up and added to where a
binary search for the key ends: everything before that place has a smaller key, and what stands there
is the one value with the key or the first with a greater one.
-/

namespace KwaqueStorage.Lib

variable {α κ : Type*} [LinearOrder κ] {key : α → κ} {a b : α} {k : κ} {l : List α}

/-- Strictly increasing in the key. -/
def Ordered (key : α → κ) (l : List α) : Prop := l.Pairwise fun a b => key a < key b

/-- Not decreasing in the key. -/
def Weak (key : α → κ) (l : List α) : Prop := l.Pairwise fun a b => key a ≤ key b

/-- What lies before the place of a key. -/
def before (key : α → κ) (k : κ) (l : List α) : List α := l.takeWhile fun a => decide (key a < k)

/-- What lies from the place of a key on: where `std::lower_bound` points. -/
def lowerBound (key : α → κ) (k : κ) (l : List α) : List α :=
  l.dropWhile fun a => decide (key a < k)

/-- The value with the key, if it stands at its place. -/
def lookup (key : α → κ) (k : κ) (l : List α) : Option α :=
  (lowerBound key k l).head?.filter fun a => decide (key a = k)

/-- A value put at the place of its key. -/
def insertAt (key : α → κ) (a : α) (l : List α) : List α :=
  before key (key a) l ++ a :: lowerBound key (key a) l

/-- What stands at the place of a key is replaced. -/
def replaceAt (key : α → κ) (a : α) (l : List α) : List α :=
  before key (key a) l ++ a :: (lowerBound key (key a) l).tail

/-- What stands at the place of a key leaves. -/
def eraseAt (key : α → κ) (k : κ) (l : List α) : List α :=
  before key k l ++ (lowerBound key k l).tail

/-- Everything with the key leaves. -/
def eraseAll (key : α → κ) (k : κ) (l : List α) : List α :=
  before key k l ++ (lowerBound key k l).dropWhile fun a => decide (key a = k)

section Congr

variable {κ' : Type*} [LinearOrder κ'] {key' : α → κ'} {k' : κ'}

/-- Two keys that put a place alike. -/
theorem lowerBound_congr (h : ∀ a, key a < k ↔ key' a < k') :
    lowerBound key k l = lowerBound key' k' l := by
  unfold lowerBound
  congr 1
  funext a
  exact decide_eq_decide.mpr (h a)

theorem before_congr (h : ∀ a, key a < k ↔ key' a < k') : before key k l = before key' k' l := by
  unfold before
  congr 1
  funext a
  exact decide_eq_decide.mpr (h a)

theorem lookup_congr (h : ∀ a, key a < k ↔ key' a < k') (heq : ∀ a, key a = k ↔ key' a = k') :
    lookup key k l = lookup key' k' l := by
  unfold lookup
  rw [lowerBound_congr h]
  congr 1
  funext a
  exact decide_eq_decide.mpr (heq a)

end Congr

theorem before_append_lowerBound : before key k l ++ lowerBound key k l = l :=
  List.takeWhile_append_dropWhile

theorem lt_of_mem_before (h : a ∈ before key k l) : key a < k := by
  simpa using List.all_eq_true.mp List.all_takeWhile a h

@[simp] theorem mem_insertAt : b ∈ insertAt key a l ↔ b = a ∨ b ∈ l := by
  rw [insertAt, List.mem_append, List.mem_cons]
  conv_rhs => rw [← @before_append_lowerBound α κ _ key (key a) l, List.mem_append]
  tauto

/-- Past the place of a key is nothing smaller. -/
theorem Weak.le_of_mem_lowerBound (h : Weak key l) (ha : a ∈ lowerBound key k l) : k ≤ key a := by
  have hsub : Weak key (lowerBound key k l) := List.Pairwise.sublist (List.dropWhile_sublist _) h
  cases hl : lowerBound key k l with
  | nil =>
    rw [hl] at ha
    cases ha
  | cons x rest =>
    have hx : k ≤ key x := by
      have hhead := List.head?_dropWhile_not (fun a : α => decide (key a < k)) l
      rw [show l.dropWhile _ = x :: rest from hl] at hhead
      simpa using hhead
    rw [hl] at ha hsub
    rcases List.mem_cons.mp ha with rfl | hmem
    · exact hx
    · exact hx.trans ((List.pairwise_cons.mp hsub).1 a hmem)

namespace Ordered

theorem nil : Ordered key [] := List.Pairwise.nil

theorem nodup (h : Ordered key l) : l.Nodup := by
  refine List.Pairwise.imp ?_ h
  rintro x y hlt rfl
  exact lt_irrefl _ hlt

theorem sublist (h : Ordered key l) {l' : List α} (hsub : l'.Sublist l) : Ordered key l' :=
  List.Pairwise.sublist hsub h

theorem filter (h : Ordered key l) (p : α → Bool) : Ordered key (l.filter p) :=
  h.sublist List.filter_sublist

theorem weak (h : Ordered key l) : Weak key l := List.Pairwise.imp (fun hlt => le_of_lt hlt) h

theorem le_of_mem_lowerBound (h : Ordered key l) (ha : a ∈ lowerBound key k l) : k ≤ key a :=
  h.weak.le_of_mem_lowerBound ha

/-- **A lookup finds the value with the key**, and only it. -/
theorem lookup_eq_some (h : Ordered key l) : lookup key k l = some a ↔ a ∈ l ∧ key a = k := by
  unfold lookup
  rw [Option.filter_eq_some_iff]
  simp only [decide_eq_true_eq]
  constructor
  · rintro ⟨hhead, hkey⟩
    exact ⟨(List.dropWhile_sublist _).subset (List.mem_of_head? hhead), hkey⟩
  · rintro ⟨hmem, rfl⟩
    refine ⟨?_, rfl⟩
    rw [← @before_append_lowerBound α κ _ key (key a) l, List.mem_append] at hmem
    rcases hmem with hmem | hmem
    · exact absurd (lt_of_mem_before hmem) (lt_irrefl _)
    · have hsub : Ordered key (lowerBound key (key a) l) := h.sublist (List.dropWhile_sublist _)
      cases hl : lowerBound key (key a) l with
      | nil =>
        rw [hl] at hmem
        cases hmem
      | cons x rest =>
        have hx : key a ≤ key x := h.le_of_mem_lowerBound (hl ▸ List.mem_cons_self)
        rw [hl] at hmem hsub
        rcases List.mem_cons.mp hmem with rfl | hmem
        · rfl
        · exact absurd ((List.pairwise_cons.mp hsub).1 a hmem) (not_lt.mpr hx)

/-- A table has one value for a key. -/
theorem unique (h : Ordered key l) (ha : a ∈ l) (hb : b ∈ l) (hkey : key a = key b) : a = b :=
  Option.some.inj ((h.lookup_eq_some.mpr ⟨ha, hkey⟩).symm.trans (h.lookup_eq_some.mpr ⟨hb, rfl⟩))

theorem lookup_eq_none (h : Ordered key l) : lookup key k l = none ↔ ∀ a ∈ l, key a ≠ k := by
  constructor
  · intro hnone a hmem hkey
    rw [h.lookup_eq_some.mpr ⟨hmem, hkey⟩] at hnone
    cases hnone
  · intro hall
    cases hl : lookup key k l with
    | none => rfl
    | some a =>
      obtain ⟨hmem, hkey⟩ := h.lookup_eq_some.mp hl
      exact absurd hkey (hall a hmem)

/-- What has a key is what a lookup finds. -/
theorem filter_key (h : Ordered key l) {p : α → Bool} (hp : ∀ a, p a = true ↔ key a = k) :
    l.filter p = (lookup key k l).toList := by
  cases hl : lookup key k l with
  | none =>
    rw [List.filter_eq_nil_iff.mpr]
    · rfl
    · intro a hmem hpa
      exact h.lookup_eq_none.mp hl a hmem ((hp a).mp hpa)
  | some a =>
    obtain ⟨hmem, hkey⟩ := h.lookup_eq_some.mp hl
    have hnodup := (h.filter p).nodup
    have hall : ∀ b ∈ l.filter p, b = a := by
      intro b hb
      obtain ⟨hb, hpb⟩ := List.mem_filter.mp hb
      exact h.unique hb hmem (((hp b).mp hpb).trans hkey.symm)
    have hin : a ∈ l.filter p := List.mem_filter.mpr ⟨hmem, (hp a).mpr hkey⟩
    cases hf : l.filter p with
    | nil =>
      rw [hf] at hin
      cases hin
    | cons x rest =>
      rw [hf] at hall hnodup
      obtain rfl := hall x List.mem_cons_self
      cases rest with
      | nil => rfl
      | cons y rest =>
        obtain rfl := hall y (by simp)
        simp at hnodup

/-- **A value with a new key** goes in where its place is. -/
theorem insertAt (h : Ordered key l) (hnew : ∀ b ∈ l, key b ≠ key a) :
    Ordered key (insertAt key a l) := by
  unfold Ordered Lib.insertAt
  rw [List.pairwise_append, List.pairwise_cons]
  refine ⟨h.sublist (List.takeWhile_sublist _), ⟨?_, h.sublist (List.dropWhile_sublist _)⟩, ?_⟩
  · intro b hb
    have hmem : b ∈ l := (List.dropWhile_sublist _).subset hb
    exact lt_of_le_of_ne (h.le_of_mem_lowerBound hb) (hnew b hmem).symm
  · intro b hb c hc
    have hlt := lt_of_mem_before hb
    rcases List.mem_cons.mp hc with rfl | hc
    · exact hlt
    · exact hlt.trans_le (h.le_of_mem_lowerBound hc)

/-- The value that stands at the place of its key is the first from there on. -/
theorem lowerBound_eq (h : Ordered key l) (ha : a ∈ l) :
    ∃ rest, lowerBound key (key a) l = a :: rest ∧ l = before key (key a) l ++ a :: rest := by
  have hfound := h.lookup_eq_some.mpr ⟨ha, rfl⟩
  unfold lookup at hfound
  rw [Option.filter_eq_some_iff] at hfound
  obtain ⟨rest, hrest⟩ := List.head?_eq_some_iff.mp hfound.1
  refine ⟨rest, hrest, ?_⟩
  rw [← hrest, before_append_lowerBound]

/-- **A value for a key that is there** takes its place. -/
theorem replaceAt (h : Ordered key l) (hb : b ∈ l) (hkey : key b = key a) :
    Ordered key (replaceAt key a l)
      ∧ ∀ c, c ∈ Lib.replaceAt key a l ↔ c = a ∨ (c ∈ l ∧ key c ≠ key a) := by
  obtain ⟨rest, hrest, hl⟩ := h.lowerBound_eq hb
  rw [hkey] at hrest hl
  have hpairs := h
  unfold Ordered at hpairs
  rw [hl, List.pairwise_append, List.pairwise_cons] at hpairs
  obtain ⟨hfirst, ⟨hafter, hlast⟩, hbetween⟩ := hpairs
  unfold Lib.replaceAt
  rw [hrest, List.tail_cons]
  refine ⟨?_, ?_⟩
  · unfold Ordered
    rw [List.pairwise_append, List.pairwise_cons]
    refine ⟨hfirst, ⟨fun c hc => hkey ▸ hafter c hc, hlast⟩, ?_⟩
    intro c hc d hd
    rcases List.mem_cons.mp hd with rfl | hd
    · exact lt_of_mem_before hc
    · exact hbetween c hc d (List.mem_cons_of_mem _ hd)
  · intro c
    rw [List.mem_append, List.mem_cons]
    constructor
    · rintro (hc | rfl | hc)
      · refine .inr ⟨?_, ne_of_lt (lt_of_mem_before hc)⟩
        rw [hl]
        exact List.mem_append_left _ hc
      · exact .inl rfl
      · refine .inr ⟨?_, (ne_of_lt (hkey ▸ hafter c hc)).symm⟩
        rw [hl]
        exact List.mem_append_right _ (List.mem_cons_of_mem _ hc)
    · rintro (rfl | ⟨hc, hne⟩)
      · exact .inr (.inl rfl)
      · rw [hl, List.mem_append, List.mem_cons] at hc
        rcases hc with hc | rfl | hc
        · exact .inl hc
        · exact absurd hkey hne
        · exact .inr (.inr hc)

/-- **What has the key leaves.** -/
theorem mem_eraseAt (h : Ordered key l) (hb : b ∈ l) (hkey : key b = k) :
    a ∈ eraseAt key k l ↔ a ∈ l ∧ key a ≠ k := by
  subst hkey
  obtain ⟨rest, hrest, hl⟩ := h.lowerBound_eq hb
  have hpairs := h
  unfold Ordered at hpairs
  rw [hl, List.pairwise_append, List.pairwise_cons] at hpairs
  unfold eraseAt
  rw [hrest, List.tail_cons, List.mem_append]
  conv_rhs => rw [hl, List.mem_append, List.mem_cons]
  constructor
  · rintro (ha | ha)
    · exact ⟨.inl ha, ne_of_lt (lt_of_mem_before ha)⟩
    · exact ⟨.inr (.inr ha), (ne_of_lt (hpairs.2.1.1 a ha)).symm⟩
  · rintro ⟨ha | rfl | ha, hne⟩
    · exact .inl ha
    · exact absurd rfl hne
    · exact .inr ha

theorem eraseAt (h : Ordered key l) : Ordered key (eraseAt key k l) := by
  apply h.sublist
  conv_rhs => rw [← @before_append_lowerBound α κ _ key k l]
  exact List.Sublist.append (List.Sublist.refl _) (List.tail_sublist _)

end Ordered

/-! ## The greatest value at or below a key -/

/-- What lies at or before a key: all that `std::upper_bound` points past. -/
def upTo (key : α → κ) (k : κ) (l : List α) : List α := l.takeWhile fun a => decide (key a ≤ k)

/-- What lies after a key: where `std::upper_bound` points. -/
def above (key : α → κ) (k : κ) (l : List α) : List α := l.dropWhile fun a => decide (key a ≤ k)

/-- The value before the place `std::upper_bound` points at. -/
def floor (key : α → κ) (k : κ) (l : List α) : Option α := (upTo key k l).getLast?

theorem upTo_append_above : upTo key k l ++ above key k l = l := List.takeWhile_append_dropWhile

theorem le_of_mem_upTo (h : a ∈ upTo key k l) : key a ≤ k := by
  simpa using List.all_eq_true.mp List.all_takeWhile a h

namespace Ordered

/-- The first of a table is the least. -/
theorem head_le (h : Ordered key l) (ha : a ∈ l.head?) (hb : b ∈ l) : key a ≤ key b := by
  cases l with
  | nil => cases ha
  | cons x rest =>
    cases ha
    rcases List.mem_cons.mp hb with rfl | hb
    · exact le_refl _
    · exact le_of_lt ((List.pairwise_cons.mp h).1 b hb)

/-- The last of a table is the greatest. -/
theorem le_getLast (h : Ordered key l) (ha : a ∈ l.getLast?) (hb : b ∈ l) : key b ≤ key a := by
  obtain ⟨init, rfl⟩ := List.getLast?_eq_some_iff.mp ha
  rcases List.mem_append.mp hb with hb | hb
  · exact le_of_lt ((List.pairwise_append.mp h).2.2 b hb a (by simp))
  · rw [List.mem_singleton.mp hb]

/-- **One table after another** is a table when the first ends below where the second begins. -/
theorem append_iff {l' : List α} : Ordered key (l ++ l')
    ↔ Ordered key l ∧ Ordered key l' ∧ ∀ x ∈ l.getLast?, ∀ y ∈ l'.head?, key x < key y := by
  unfold Ordered
  rw [List.pairwise_append]
  constructor
  · rintro ⟨hl, hl', hbetween⟩
    exact ⟨hl, hl', fun x hx y hy => hbetween x (List.mem_of_getLast? hx) y (List.mem_of_head? hy)⟩
  · rintro ⟨hl, hl', hends⟩
    refine ⟨hl, hl', ?_⟩
    intro x hx y hy
    obtain ⟨last, hlast⟩ := Option.isSome_iff_exists.mp
      (List.getLast?_isSome.mpr (List.ne_nil_of_mem hx))
    obtain ⟨first, hfirst⟩ := Option.isSome_iff_exists.mp
      (List.isSome_head?.mpr (List.ne_nil_of_mem hy))
    calc key x ≤ key last := le_getLast hl hlast hx
      _ < key first := hends last hlast first hfirst
      _ ≤ key y := head_le hl' hfirst hy

theorem lt_of_mem_above (h : Ordered key l) (ha : a ∈ above key k l) : k < key a := by
  have hsub : Ordered key (above key k l) := h.sublist (List.dropWhile_sublist _)
  cases hl : above key k l with
  | nil =>
    rw [hl] at ha
    cases ha
  | cons x rest =>
    have hx : k < key x := by
      have hhead := List.head?_dropWhile_not (fun a : α => decide (key a ≤ k)) l
      rw [show l.dropWhile _ = x :: rest from hl] at hhead
      simpa using hhead
    rw [hl] at ha hsub
    exact hx.trans_le (head_le hsub rfl ha)

theorem mem_upTo (h : Ordered key l) : a ∈ upTo key k l ↔ a ∈ l ∧ key a ≤ k := by
  constructor
  · intro ha
    exact ⟨(List.takeWhile_sublist _).subset ha, le_of_mem_upTo ha⟩
  · rintro ⟨ha, hle⟩
    rw [← @upTo_append_above α κ _ key k l, List.mem_append] at ha
    rcases ha with ha | ha
    · exact ha
    · exact absurd (h.lt_of_mem_above ha) (not_lt.mpr hle)

/-- A key that is not below every value has a floor. -/
theorem exists_floor (h : Ordered key l) (ha : a ∈ l) (hle : key a ≤ k) :
    ∃ b, floor key k l = some b :=
  Option.isSome_iff_exists.mp
    (List.getLast?_isSome.mpr (List.ne_nil_of_mem (h.mem_upTo.mpr ⟨ha, hle⟩)))

/-- **The floor of a key** is the greatest value at or below it. -/
theorem floor_eq_some (h : Ordered key l) : floor key k l = some a
    ↔ a ∈ l ∧ key a ≤ k ∧ ∀ b ∈ l, key b ≤ k → key b ≤ key a := by
  have hsub : Ordered key (upTo key k l) := h.sublist (List.takeWhile_sublist _)
  constructor
  · intro hlast
    obtain ⟨hmem, hle⟩ := h.mem_upTo.mp (List.mem_of_getLast? hlast)
    exact ⟨hmem, hle, fun b hb hbk => hsub.le_getLast hlast (h.mem_upTo.mpr ⟨hb, hbk⟩)⟩
  · rintro ⟨hmem, hle, hgreatest⟩
    obtain ⟨last, hlast⟩ := h.exists_floor hmem hle
    obtain ⟨hlmem, hlk⟩ := h.mem_upTo.mp (List.mem_of_getLast? hlast)
    have hkey : key last = key a :=
      le_antisymm (hgreatest last hlmem hlk)
        (hsub.le_getLast hlast (h.mem_upTo.mpr ⟨hmem, hle⟩))
    rw [hlast, h.unique hlmem hmem hkey]

end Ordered

/-! ## A coarser key -/

namespace Weak

/-- From the place of a key on, what has the key comes first. -/
theorem lowerBound_split (h : Weak key l) {p : α → Bool} (hp : ∀ a, p a = true ↔ key a = k) :
    (lowerBound key k l).takeWhile p = l.filter p
      ∧ (lowerBound key k l).dropWhile p = (lowerBound key k l).filter fun a => !p a := by
  have hsplit : ∀ m : List α, m.Pairwise (fun a b => key a ≤ key b) → (∀ a ∈ m, k ≤ key a) →
      m.takeWhile p = m.filter p ∧ m.dropWhile p = m.filter fun a => !p a := by
    intro m
    induction m with
    | nil =>
      intro _ _
      exact ⟨rfl, rfl⟩
    | cons x rest ih =>
      intro hm hfrom
      obtain ⟨hx, hrest⟩ := List.pairwise_cons.mp hm
      by_cases hkey : p x = true
      · obtain ⟨htake, hdrop⟩ := ih hrest fun a ha => hfrom a (List.mem_cons_of_mem _ ha)
        simp [hkey, htake, hdrop]
      · -- past the first greater key are only greater ones
        have hlt : k < key x :=
          lt_of_le_of_ne (hfrom x List.mem_cons_self) fun heq => hkey ((hp x).mpr heq.symm)
        have hgreater : ∀ a ∈ x :: rest, ¬ p a = true := by
          intro a ha hpa
          have heq := (hp a).mp hpa
          rcases List.mem_cons.mp ha with rfl | ha
          · exact hkey hpa
          · exact absurd (hlt.trans_le (hx a ha)) (by rw [heq]; exact lt_irrefl _)
        rw [List.filter_eq_nil_iff.mpr hgreater,
          List.filter_eq_self.mpr fun a ha => by simpa using hgreater a ha]
        simp [hkey]
  have hsub : Weak key (lowerBound key k l) := List.Pairwise.sublist (List.dropWhile_sublist _) h
  obtain ⟨htake, hdrop⟩ := hsplit _ hsub fun a ha => h.le_of_mem_lowerBound ha
  refine ⟨?_, hdrop⟩
  rw [htake]
  conv_rhs => rw [← @before_append_lowerBound α κ _ key k l, List.filter_append]
  have hnone : (before key k l).filter p = [] := by
    apply List.filter_eq_nil_iff.mpr
    intro a ha hpa
    exact ne_of_lt (lt_of_mem_before ha) ((hp a).mp hpa)
  rw [hnone, List.nil_append]

/-- **Everything with the key leaves**, and nothing else. -/
theorem mem_eraseAll (h : Weak key l) : a ∈ eraseAll key k l ↔ a ∈ l ∧ key a ≠ k := by
  unfold eraseAll
  rw [(h.lowerBound_split fun a => decide_eq_true_iff).2, List.mem_append, List.mem_filter]
  conv_rhs => rw [← @before_append_lowerBound α κ _ key k l, List.mem_append]
  simp only [Bool.not_eq_true', decide_eq_false_iff_not]
  constructor
  · rintro (ha | ⟨ha, hne⟩)
    · exact ⟨.inl ha, ne_of_lt (lt_of_mem_before ha)⟩
    · exact ⟨.inr ha, hne⟩
  · rintro ⟨ha | ha, hne⟩
    · exact .inl ha
    · exact .inr ⟨ha, hne⟩

theorem eraseAll_sublist : (eraseAll key k l).Sublist l := by
  conv_rhs => rw [← @before_append_lowerBound α κ _ key k l]
  exact List.Sublist.append (List.Sublist.refl _) (List.dropWhile_sublist _)

theorem lookup_isSome (h : Weak key l) : (lookup key k l).isSome ↔ ∃ a ∈ l, key a = k := by
  constructor
  · intro hsome
    obtain ⟨a, ha⟩ := Option.isSome_iff_exists.mp hsome
    unfold lookup at ha
    rw [Option.filter_eq_some_iff] at ha
    exact ⟨a, (List.dropWhile_sublist _).subset (List.mem_of_head? ha.1), by simpa using ha.2⟩
  · rintro ⟨a, ha, hkey⟩
    have hin : a ∈ (lowerBound key k l).takeWhile (fun a => decide (key a = k)) := by
      rw [(h.lowerBound_split fun a => decide_eq_true_iff).1, List.mem_filter]
      exact ⟨ha, by simpa using hkey⟩
    cases hl : lowerBound key k l with
    | nil =>
      rw [hl] at hin
      cases hin
    | cons x rest =>
      rw [hl, List.takeWhile_cons] at hin
      unfold lookup
      rw [hl, List.head?_cons]
      split at hin
      next hx => simp [hx]
      next => cases hin

end Weak

end KwaqueStorage.Lib
