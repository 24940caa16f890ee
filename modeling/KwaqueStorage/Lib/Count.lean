import Mathlib

/-!
# Counting in a list

A counter that the code moves by hand is proved right by saying what it counts: the elements
of a list of indices where a test holds. The lemmas here say how such a count moves when the
test changes at one element, and how it splits.
-/

namespace KwaqueStorage.Lib

variable {α : Type*} {p q : α → Bool} {l : List α} {b : α}

theorem countP_same (h : ∀ a ∈ l, p a = q a) : l.countP p = l.countP q :=
  List.countP_congr fun a ha => by rw [h a ha]

/-- In a list without repetitions, the test loses exactly one element. -/
theorem countP_lose (hn : l.Nodup) (hb : b ∈ l) (hp : p b = true) (hq : q b = false)
    (h : ∀ a ∈ l, a ≠ b → p a = q a) : l.countP p = l.countP q + 1 := by
  induction l with
  | nil => cases hb
  | cons a rest ih =>
    obtain ⟨ha, hrest⟩ := List.nodup_cons.mp hn
    rw [List.countP_cons, List.countP_cons]
    by_cases hab : a = b
    · subst hab
      have hsame : rest.countP p = rest.countP q :=
        countP_same fun c hc => h c (List.mem_cons_of_mem a hc) fun hca => ha (hca ▸ hc)
      rw [hsame, hp, hq]
      simp
    · have hb' : b ∈ rest := (List.mem_cons.mp hb).resolve_left (Ne.symm hab)
      rw [ih hrest hb' fun c hc => h c (List.mem_cons_of_mem a hc), h a (by simp) hab]
      omega

/-- The count splits along a second test. -/
theorem countP_split (p q : α → Bool) (l : List α) :
    l.countP p = l.countP (fun a => p a && q a) + l.countP fun a => p a && !q a := by
  induction l with
  | nil => rfl
  | cons a rest ih =>
    simp only [List.countP_cons, ih]
    cases p a <;> cases q a <;> simp <;> omega

end KwaqueStorage.Lib
