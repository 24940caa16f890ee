import Mathlib

/-!
# Directories that a crash finds each at a time of its own

A directory's names are durable as they were at some time since its last sync, and which time that is
has nothing to do with any other directory. So what a crash may leave is not one state of the file
system that ever was: a file that was moved from one directory to another may be named by both, as
long as the one it left has not been synced since.
-/

namespace KwaqueStorage.Lib

open Function (update update_of_ne update_self)

/-- Directories, each with its names now and the states it had since its last sync. -/
structure Directories (δ ℓ φ : Type) where
  now : δ → ℓ → Option φ
  since : δ → List (ℓ → Option φ)

namespace Directories

variable {δ ℓ φ : Type} [DecidableEq δ] [DecidableEq ℓ]

/-- What a crash may leave. -/
def Crash (w : Directories δ ℓ φ) (after : δ → ℓ → Option φ) : Prop := ∀ d, after d ∈ w.since d

/-- A directory's names change. -/
def put (w : Directories δ ℓ φ) (d : δ) (names : ℓ → Option φ) : Directories δ ℓ φ where
  now := update w.now d names
  since := update w.since d (names :: w.since d)

/-- A name goes. -/
def remove (w : Directories δ ℓ φ) (at_ : δ × ℓ) : Directories δ ℓ φ :=
  w.put at_.1 (update (w.now at_.1) at_.2 none)

/-- A file takes another name: in one directory at once, else in each of the two on its own. -/
def move (w : Directories δ ℓ φ) (from_ to_ : δ × ℓ) (file : φ) : Directories δ ℓ φ :=
  if from_.1 = to_.1 then
    w.put to_.1 (update (update (w.now to_.1) from_.2 none) to_.2 (some file))
  else
    (w.remove from_).put to_.1 (update (w.now to_.1) to_.2 (some file))

/-- A directory's names are durable as they are. -/
def sync (w : Directories δ ℓ φ) (d : δ) : Directories δ ℓ φ :=
  { w with since := update w.since d [w.now d] }

/-- The names after a crash name no file twice. -/
def Once (after : δ → ℓ → Option φ) : Prop :=
  ∀ file d l d' l', after d l = some file → after d' l' = some file → d = d' ∧ l = l'

/-- After a crash the directory may name the file. -/
def May (w : Directories δ ℓ φ) (d : δ) (file : φ) : Prop := ∃ names ∈ w.since d, ∃ l, names l = some file

/-- What a directory is now is one of the states it had, and none of them names a file twice. -/
structure Sound (w : Directories δ ℓ φ) : Prop where
  now : ∀ d, w.now d ∈ w.since d
  single : ∀ d, ∀ names ∈ w.since d, ∀ file l l', names l = some file → names l' = some file → l = l'

/-- **No crash leaves a file under two names**: each file is of one directory. -/
structure Apart (w : Directories δ ℓ φ) : Prop extends w.Sound where
  one : ∀ file d d', w.May d file → w.May d' file → d = d'

/-- A file has left a directory that was not synced since, and every other file is of one directory. -/
structure Moving (w : Directories δ ℓ φ) (file : φ) (left at_ : δ) : Prop extends w.Sound where
  others : ∀ other, other ≠ file → ∀ d d', w.May d other → w.May d' other → d = d'
  either : ∀ d, w.May d file → d = left ∨ d = at_
  gone : ∀ l, w.now left l ≠ some file

variable {w : Directories δ ℓ φ} {file : φ} {d left at_ : δ} {names : ℓ → Option φ}

omit [DecidableEq δ] [DecidableEq ℓ] in
theorem Sound.may (h : w.Sound) {l : ℓ} (hnow : w.now d l = some file) : w.May d file :=
  ⟨w.now d, h.now d, l, hnow⟩

omit [DecidableEq ℓ] in
theorem may_put {d' : δ} : (w.put d names).May d' file
    ↔ w.May d' file ∨ (d' = d ∧ ∃ l, names l = some file) := by
  unfold May put
  by_cases heq : d' = d
  · subst heq
    simp only [update_self, List.mem_cons, exists_eq_or_imp, true_and]
    exact or_comm
  · simp only [update_of_ne heq, heq, false_and, or_false]

omit [DecidableEq ℓ] in
theorem may_sync {d' : δ} : (w.sync d).May d' file
    ↔ (d' = d ∧ ∃ l, w.now d l = some file) ∨ (d' ≠ d ∧ w.May d' file) := by
  unfold May sync
  by_cases heq : d' = d
  · subst heq
    simp only [update_self, List.mem_singleton, exists_eq_left, true_and, ne_eq,
      not_true_eq_false, false_and, or_false]
  · simp only [update_of_ne heq, heq, false_and, false_or, ne_eq, not_false_eq_true,
      true_and]

omit [DecidableEq ℓ] in
theorem Sound.put (h : w.Sound)
    (hsingle : ∀ file l l', names l = some file → names l' = some file → l = l') :
    (w.put d names).Sound := by
  refine ⟨?_, ?_⟩
  · intro d'
    unfold Directories.put
    by_cases heq : d' = d
    · subst heq
      simp only [update_self, List.mem_cons, true_or]
    · simp only [update_of_ne heq]
      exact h.now d'
  · intro d' state hstate
    unfold Directories.put at hstate
    by_cases heq : d' = d
    · subst heq
      simp only [update_self, List.mem_cons] at hstate
      rcases hstate with rfl | hstate
      · exact hsingle
      · exact h.single d' state hstate
    · simp only [update_of_ne heq] at hstate
      exact h.single d' state hstate

omit [DecidableEq ℓ] in
theorem Sound.sync (h : w.Sound) : (w.sync d).Sound := by
  refine ⟨?_, ?_⟩
  · intro d'
    unfold Directories.sync
    by_cases heq : d' = d
    · subst heq
      simp only [update_self, List.mem_singleton]
    · simp only [update_of_ne heq]
      exact h.now d'
  · intro d' state hstate
    unfold Directories.sync at hstate
    by_cases heq : d' = d
    · subst heq
      simp only [update_self, List.mem_singleton] at hstate
      subst hstate
      exact h.single d' _ (h.now d')
    · simp only [update_of_ne heq] at hstate
      exact h.single d' state hstate

omit [DecidableEq δ] [DecidableEq ℓ] in
/-- **What a crash leaves of directories apart.** -/
theorem Apart.once (h : w.Apart) {after : δ → ℓ → Option φ} (hcrash : w.Crash after) : Once after := by
  intro file d l d' l' hd hd'
  have hmay : ∀ {d l}, after d l = some file → w.May d file :=
    fun {d l} hat => ⟨after d, hcrash d, l, hat⟩
  obtain rfl := h.one file d d' (hmay hd) (hmay hd')
  exact ⟨rfl, h.single d _ (hcrash d) file l l' hd hd'⟩

omit [DecidableEq δ] [DecidableEq ℓ] in
/-- While a file is moving, it has two names after a crash only if the new one is durable ahead of a
    sync. -/
theorem Moving.once (h : w.Moving file left at_) {after : δ → ℓ → Option φ} (hcrash : w.Crash after)
    (hnew : ∀ l, after at_ l ≠ some file) : Once after := by
  intro other d l d' l' hd hd'
  have hmay : ∀ {d l}, after d l = some other → w.May d other :=
    fun {d l} hat => ⟨after d, hcrash d, l, hat⟩
  have hsame : d = d' := by
    by_cases heq : other = file
    · subst heq
      have hleft : ∀ {d l}, after d l = some other → d = left := by
        intro d l hat
        rcases h.either d (hmay hat) with rfl | rfl
        · rfl
        · exact absurd hat (hnew l)
      rw [hleft hd, hleft hd']
    · exact h.others other heq d d' (hmay hd) (hmay hd')
  subst hsame
  exact ⟨rfl, h.single d _ (hcrash d) other l l' hd hd'⟩

omit [DecidableEq ℓ] in
theorem Apart.sync (h : w.Apart) : (w.sync d).Apart := by
  refine ⟨h.toSound.sync, ?_⟩
  intro file a b ha hb
  have hback : ∀ {a}, (w.sync d).May a file → w.May a file := by
    intro a ha
    rcases may_sync.mp ha with ⟨rfl, l, hl⟩ | ⟨_, ha⟩
    · exact h.toSound.may hl
    · exact ha
  exact h.one file a b (hback ha) (hback hb)

/-- A name that goes makes no file of another directory. -/
theorem Apart.remove (h : w.Apart) {at_ : δ × ℓ} : (w.remove at_).Apart := by
  have hless : ∀ {file l}, update (w.now at_.1) at_.2 none l = some file →
      w.now at_.1 l = some file := by
    intro file l hl
    by_cases heq : l = at_.2
    · rw [heq, update_self] at hl
      cases hl
    · rwa [update_of_ne heq] at hl
  have hnow := h.toSound.now at_.1
  refine ⟨h.toSound.put ?_, ?_⟩
  · intro file l l' hl hl'
    exact h.toSound.single at_.1 _ hnow file l l' (hless hl) (hless hl')
  · intro file a b ha hb
    have hback : ∀ {a}, (w.remove at_).May a file → w.May a file := by
      intro a ha
      rcases may_put.mp ha with ha | ⟨rfl, l, hl⟩
      · exact ha
      · exact h.toSound.may (hless hl)
    exact h.one file a b (hback ha) (hback hb)

section Moves

variable {from_ to_ : δ × ℓ}

/-- What a directory names when a file takes a free name in it. -/
theorem named_put {names : ℓ → Option φ} {l : ℓ} {other : φ} {x : ℓ}
    (hx : update names l (some file) x = some other) :
    (x = l ∧ other = file) ∨ (x ≠ l ∧ names x = some other) := by
  by_cases heq : x = l
  · rw [heq, update_self] at hx
    exact .inl ⟨heq, (Option.some.inj hx).symm⟩
  · rw [update_of_ne heq] at hx
    exact .inr ⟨heq, hx⟩

/-- **A file that takes another name in its directory** stays of it. -/
theorem Apart.move_within (h : w.Apart) (hsame : from_.1 = to_.1)
    (hnow : w.now from_.1 from_.2 = some file) : (w.move from_ to_ file).Apart := by
  unfold Directories.move
  rw [if_pos hsame]
  rw [hsame] at hnow
  have hsingle := h.toSound.single to_.1 _ (h.toSound.now to_.1)
  -- the other names of the directory are names of other files
  have hnamed : ∀ {other x}, update (update (w.now to_.1) from_.2 none) to_.2
      (some file) x = some other →
      (x = to_.2 ∧ other = file) ∨ (w.now to_.1 x = some other ∧ other ≠ file) := by
    intro other x hx
    rcases named_put hx with hnew | ⟨_, hkept⟩
    · exact .inl hnew
    · by_cases hold : x = from_.2
      · rw [hold, update_self] at hkept
        cases hkept
      · rw [update_of_ne hold] at hkept
        refine .inr ⟨hkept, ?_⟩
        rintro rfl
        exact hold (hsingle other x from_.2 hkept hnow)
  refine ⟨h.toSound.put ?_, ?_⟩
  · intro other x y hx hy
    rcases hnamed hx with ⟨rfl, rfl⟩ | ⟨hx, hne⟩
    · rcases hnamed hy with ⟨rfl, _⟩ | ⟨_, hne⟩
      · rfl
      · exact absurd rfl hne
    · rcases hnamed hy with ⟨_, rfl⟩ | ⟨hy, _⟩
      · exact absurd rfl hne
      · exact hsingle other x y hx hy
  · intro other a b ha hb
    have hback : ∀ {a}, (w.put to_.1 (update
        (update (w.now to_.1) from_.2 none) to_.2 (some file))).May a other →
        w.May a other := by
      intro a ha
      rcases may_put.mp ha with ha | ⟨rfl, x, hx⟩
      · exact ha
      · rcases hnamed hx with ⟨_, rfl⟩ | ⟨hx, _⟩
        · exact h.toSound.may hnow
        · exact h.toSound.may hx
    exact h.one other a b (hback ha) (hback hb)

/-- **A file that leaves its directory** may be named by both until the one it left is synced. -/
theorem Apart.move_out (h : w.Apart) (hother : from_.1 ≠ to_.1)
    (hnow : w.now from_.1 from_.2 = some file) :
    (w.move from_ to_ file).Moving file from_.1 to_.1 := by
  have hleaves : w.move from_ to_ file
      = (w.remove from_).put to_.1 (update (w.now to_.1) to_.2 (some file)) := by
    unfold Directories.move
    rw [if_neg hother]
  have hsingle := h.toSound.single
  have hnew : ∀ x, w.now to_.1 x ≠ some file := by
    intro x hx
    exact hother (h.one file _ _ (h.toSound.may hnow) (h.toSound.may hx))
  have hless : (w.remove from_).Apart := h.remove
  rw [hleaves]
  refine ⟨hless.toSound.put ?_, ?_, ?_, ?_⟩
  · intro other x y hx hy
    rcases named_put hx with ⟨rfl, rfl⟩ | ⟨_, hkept⟩
    · rcases named_put hy with ⟨rfl, _⟩ | ⟨_, hkept⟩
      · rfl
      · exact absurd hkept (hnew y)
    · rcases named_put hy with ⟨_, rfl⟩ | ⟨_, hkept'⟩
      · exact absurd hkept (hnew x)
      · exact hsingle to_.1 _ (h.toSound.now to_.1) other x y hkept hkept'
  · intro other hne a b ha hb
    have hback : ∀ {a}, ((w.remove from_).put to_.1
        (update (w.now to_.1) to_.2 (some file))).May a other →
        (w.remove from_).May a other := by
      intro a ha
      rcases may_put.mp ha with ha | ⟨rfl, x, hx⟩
      · exact ha
      · rcases named_put hx with ⟨_, rfl⟩ | ⟨_, hx⟩
        · exact absurd rfl hne
        · exact may_put.mpr (.inl (h.toSound.may hx))
    exact hless.one other a b (hback ha) (hback hb)
  · intro a ha
    rcases may_put.mp ha with ha | ⟨rfl, _⟩
    · refine .inl (hless.one file a from_.1 ha (may_put.mpr (.inl ?_)))
      exact h.toSound.may hnow
    · exact .inr rfl
  · intro x hx
    simp only [Directories.put, update_of_ne hother, Directories.remove,
      update_self] at hx
    by_cases heq : x = from_.2
    · rw [heq, update_self] at hx
      cases hx
    · rw [update_of_ne heq] at hx
      exact heq (hsingle _ _ (h.toSound.now from_.1) file x from_.2 hx hnow)

omit [DecidableEq ℓ] in
/-- **The sync of the directory it left** makes the file one of the other directory alone. -/
theorem Moving.sync (h : w.Moving file left at_) : (w.sync left).Apart := by
  refine ⟨h.toSound.sync, ?_⟩
  intro other a b ha hb
  have hback : ∀ {a}, (w.sync left).May a other → w.May a other := by
    intro a ha
    rcases may_sync.mp ha with ⟨rfl, l, hl⟩ | ⟨_, ha⟩
    · exact h.toSound.may hl
    · exact ha
  by_cases heq : other = file
  · subst heq
    have hat : ∀ {a}, (w.sync left).May a other → a = at_ := by
      intro a ha
      rcases may_sync.mp ha with ⟨rfl, l, hl⟩ | ⟨hne, ha⟩
      · exact absurd hl (h.gone l)
      · exact (h.either a ha).resolve_left hne
    rw [hat ha, hat hb]
  · exact h.others other heq a b (hback ha) (hback hb)

end Moves

end Directories
end KwaqueStorage.Lib
