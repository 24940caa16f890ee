import KwaqueStorage.Lib.Table

/-!
# Binary search

`std::ranges::upper_bound` as it runs: over a range of places, halving what is left by whether the middle is
past what is sought. Where the places that are past come last, it finds the first of them, and over a table in
order that is what a walk from its front finds.
-/

namespace KwaqueStorage.Lib

/-- The loop of `upper_bound`, over `left` places from `first`. -/
def upperBound (past : Nat → Bool) (first left : Nat) : Nat :=
  if left = 0 then first
  else
    let half := left / 2
    if past (first + half) then upperBound past first half
    else upperBound past (first + half + 1) (left - half - 1)
termination_by left

/-- **It finds the first place that is past**, if those come last. -/
theorem upperBound_spec {past : Nat → Bool} {first left : Nat}
    (h : ∀ i j, first ≤ i → i ≤ j → j < first + left → past i = true → past j = true) :
    first ≤ upperBound past first left ∧ upperBound past first left ≤ first + left
      ∧ (∀ i, first ≤ i → i < upperBound past first left → past i = false)
      ∧ ∀ i, upperBound past first left ≤ i → i < first + left → past i = true := by
  fun_induction upperBound past first left with
  | case1 first => exact ⟨Nat.le_refl _, Nat.le_refl _, by omega, by omega⟩
  | case2 first left hsome half hpast ih =>
    have hless : half < left := Nat.div_lt_self (Nat.pos_of_ne_zero hsome) (by decide)
    obtain ⟨hfirst, hle, hbefore, hafter⟩ := ih fun i j hi hij hj => h i j hi hij (by omega)
    refine ⟨hfirst, by omega, hbefore, ?_⟩
    intro i hi hlt
    by_cases hhalf : i < first + half
    · exact hafter i hi hhalf
    · exact h (first + half) i (by omega) (by omega) hlt hpast
  | case3 first left hsome half hnot ih =>
    have hless : half < left := Nat.div_lt_self (Nat.pos_of_ne_zero hsome) (by decide)
    obtain ⟨hfirst, hle, hbefore, hafter⟩ := ih fun i j hi hij hj => h i j (by omega) hij (by omega)
    refine ⟨by omega, by omega, ?_, ?_⟩
    · intro i hi hlt
      by_cases hhalf : i < first + half + 1
      · -- were it past, the middle would be too
        by_contra hpast
        exact hnot (h i (first + half) hi (by omega) (by omega) (Bool.not_eq_false _ ▸ hpast))
      · exact hbefore i (by omega) hlt
    · intro i hi hlt
      exact hafter i hi (by omega)

/-- Only the places searched matter. -/
theorem upperBound_congr {past past' : Nat → Bool} {first left : Nat}
    (h : ∀ i, first ≤ i → i < first + left → past i = past' i) :
    upperBound past first left = upperBound past' first left := by
  fun_induction upperBound past first left with
  | case1 first =>
    rw [upperBound, if_pos rfl]
  | case2 first left hsome half hpast ih =>
    have hless : half < left := Nat.div_lt_self (Nat.pos_of_ne_zero hsome) (by decide)
    have hmiddle : past' (first + half) = true := h (first + half) (by omega) (by omega) ▸ hpast
    rw [upperBound.eq_def past', if_neg hsome]
    dsimp only
    rw [if_pos hmiddle]
    exact ih fun i hi hlt => h i hi (by omega)
  | case3 first left hsome half hnot ih =>
    have hless : half < left := Nat.div_lt_self (Nat.pos_of_ne_zero hsome) (by decide)
    have hmiddle : ¬ past' (first + half) = true := h (first + half) (by omega) (by omega) ▸ hnot
    rw [upperBound.eq_def past', if_neg hsome]
    dsimp only
    rw [if_neg hmiddle]
    exact ih fun i hi hlt => h i (by omega) (by omega)

variable {α κ : Type*} [LinearOrder κ] {key : α → κ} {k : κ} {l : List α}

/-- A place of a table that is past a key. -/
def past (key : α → κ) (k : κ) (l : List α) (i : Nat) : Bool := l[i]?.any fun a => decide (k < key a)

/-- **Over a table in order** the search finds how many lie at or before the key. -/
theorem Ordered.upperBound_eq (h : Ordered key l) : upperBound (past key k l) 0 l.length = (upTo key k l).length := by
  have hsplit : upTo key k l ++ above key k l = l := upTo_append_above
  have hbefore : ∀ i, i < (upTo key k l).length → past key k l i = false := by
    intro i hi
    have hget : l[i]? = some ((upTo key k l)[i]) := by
      rw [← List.getElem?_eq_getElem hi, ← List.getElem?_append_left hi, hsplit]
    unfold past
    rw [hget, Option.any_some]
    exact decide_eq_false (not_lt.mpr (le_of_mem_upTo (List.getElem_mem hi)))
  have hafter : ∀ i, (upTo key k l).length ≤ i → i < l.length → past key k l i = true := by
    intro i hi hlt
    have hin : i - (upTo key k l).length < (above key k l).length := by
      have hlength := congrArg List.length hsplit
      rw [List.length_append] at hlength
      omega
    have hget : l[i]? = some ((above key k l)[i - (upTo key k l).length]) := by
      rw [← List.getElem?_eq_getElem hin, ← List.getElem?_append_right hi, hsplit]
    unfold past
    rw [hget, Option.any_some]
    exact decide_eq_true (h.lt_of_mem_above (List.getElem_mem hin))
  have hcount : (upTo key k l).length ≤ l.length := (List.takeWhile_prefix _).length_le
  have hmono : ∀ i j, 0 ≤ i → i ≤ j → j < 0 + l.length → past key k l i = true → past key k l j = true := by
    intro i j _ hij hj hi
    by_cases hlt : i < (upTo key k l).length
    · rw [hbefore i hlt] at hi
      cases hi
    · exact hafter j (by omega) (by omega)
  obtain ⟨_, hle, hfound, hrest⟩ := upperBound_spec hmono
  rcases Nat.lt_trichotomy (upperBound (past key k l) 0 l.length) (upTo key k l).length with hlt | heq | hgt
  · have hpast := hrest _ (Nat.le_refl _) (by omega)
    rw [hbefore _ hlt] at hpast
    cases hpast
  · exact heq
  · have hnot := hfound _ (Nat.zero_le _) hgt
    rw [hafter _ (Nat.le_refl _) (by omega)] at hnot
    cases hnot

/-- What lies at or before a key, by looking at everything. -/
theorem Ordered.upTo_eq_filter (h : Ordered key l) : upTo key k l = l.filter fun a => decide (key a ≤ k) := by
  have hsplit : upTo key k l ++ above key k l = l := upTo_append_above
  have hall : (upTo key k l).filter (fun a => decide (key a ≤ k)) = upTo key k l :=
    List.filter_eq_self.mpr fun a ha => decide_eq_true (le_of_mem_upTo ha)
  have hnone : (above key k l).filter (fun a => decide (key a ≤ k)) = [] :=
    List.filter_eq_nil_iff.mpr fun a ha => by
      rw [decide_eq_true_iff]
      exact not_le.mpr (h.lt_of_mem_above ha)
  calc upTo key k l = (upTo key k l).filter _ ++ (above key k l).filter _ := by rw [hall, hnone, List.append_nil]
    _ = l.filter _ := by rw [← List.filter_append, hsplit]

/-- What the search points at, by looking from the front. -/
theorem above_head?_eq_find? : (above key k l).head? = l.find? fun a => decide (k < key a) := by
  unfold above
  induction l with
  | nil => rfl
  | cons a rest ih =>
    rw [List.dropWhile_cons, List.find?_cons]
    by_cases hle : key a ≤ k
    · have hnot : decide (k < key a) = false := decide_eq_false (not_lt.mpr hle)
      rw [if_pos (decide_eq_true hle), hnot, ih]
    · have hlt : decide (k < key a) = true := decide_eq_true (not_le.mp hle)
      rw [if_neg (fun h => hle (of_decide_eq_true h)), hlt, List.head?_cons]

end KwaqueStorage.Lib
