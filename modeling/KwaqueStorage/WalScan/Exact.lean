import KwaqueStorage.WalScan.Scan

/-!
# What the scan of the head visits

The members of a head are the PREPAREs of its file that lie back to back from where the scan
begins (`walk`); its content is those of them through the last that ends a write (`whole`). The
content pass finds where the content ends, and the visiting pass reads the members of the
content again and refuses some that the first pass accepted: one whose target or child does not
decode, or whose WAL stamp moves back.

A member refused where a write begins ends the content there. A member refused inside a write
ends it where that write began, behind members that were visited already. That is the one case
in which the scan is not exact (`exact_iff`).
-/

namespace KwaqueStorage.WalScan

open Scan

/-- A PREPARE of the file, as it lies there. -/
structure Member where
  begin_ : Nat
  bytes : List UInt8
  claims : Claims
  deriving DecidableEq

namespace Member

def end_ (m : Member) : Nat := m.begin_ + m.bytes.length

def endsWrite (m : Member) : Bool := m.claims.endsWrite

end Member

/-- Where members back to back from a position end. -/
def endOf : Nat → List Member → Nat
  | position, [] => position
  | _, m :: rest => endOf m.end_ rest

/-- The members through the last that ends a write. -/
def whole : List Member → List Member
  | [] => []
  | m :: rest => if m.endsWrite || !(whole rest).isEmpty then m :: whole rest else []

section

variable {Prepare : Type} (codec : PrepareCodec Prepare) (identity : Identity) (file : List UInt8)

/-- The members of a file that lie back to back from a position on. -/
def walk (end_ : Nat) : (left position : Nat) → List Member
  | 0, _ => []
  | left + 1, position =>
    match classify codec.toEnvelope file position end_ with
    | .ok (.object bytes) =>
      match codec.claims bytes with
      | .ok claims =>
        if identity.owns position claims then
          ⟨position, bytes, claims⟩ :: walk end_ left (position + bytes.length)
        else []
      | .error _ => []
    | _ => []

/-- Members one after another from a position on, each an object of the file. -/
def Tiles : Nat → List Member → Prop
  | _, [] => True
  | position, m :: rest =>
    m.begin_ = position ∧ envelopePrefixBytes ≤ m.bytes.length
      ∧ (∀ later, m.end_ ≤ later →
          classify codec.toEnvelope file position later = .ok (.object m.bytes))
      ∧ codec.claims m.bytes = .ok m.claims ∧ identity.owns position m.claims = true
      ∧ Tiles m.end_ rest

variable (resolve : Nat → Except Errc (Option Target))

/-- Whether the visiting pass refuses a member after a WAL stamp. -/
def refuses (stamp : Nat) (m : Member) : Bool :=
  match decodeResolved codec identity m.begin_ resolve m.bytes with
  | .failed _ => false
  | .stop _ _ => true
  | .visit claims _ _ _ => decide (claims.walCertifiedEnd < stamp)

/-- Whether the first member refused lies inside a write of which a member was visited. -/
def stopsInside : (inside : Bool) → (stamp : Nat) → List Member → Bool
  | _, _, [] => false
  | inside, stamp, m :: rest =>
    if refuses codec identity resolve stamp m then inside
    else stopsInside (!m.endsWrite) m.claims.walCertifiedEnd rest

end

section

variable {Prepare : Type} {codec : PrepareCodec Prepare} {identity : Identity} {file : List UInt8}

theorem tiles_walk {end_ left position : Nat} (hend : end_ ≤ file.length) :
    Tiles codec identity file position (walk codec identity file end_ left position) := by
  induction left generalizing position with
  | zero => trivial
  | succ left ih =>
    rw [walk]
    split
    · next bytes hslot =>
      split
      · next claims hclaims =>
        split
        · next howns =>
          obtain ⟨hlen, -, hlater⟩ := classify_object hslot hend
          exact ⟨rfl, hlen, hlater, hclaims, howns, ih⟩
        · trivial
      · trivial
    · trivial

variable {position : Nat}

theorem tiles_append {pre post : List Member} :
    Tiles codec identity file position (pre ++ post)
      ↔ Tiles codec identity file position pre
        ∧ Tiles codec identity file (endOf position pre) post := by
  induction pre generalizing position with
  | nil => simp [Tiles, endOf]
  | cons m rest ih =>
    simp only [List.cons_append, Tiles, ih, endOf, and_assoc]

/-- Members lie after the position and end after it. -/
theorem tiles_after {ms : List Member} (h : Tiles codec identity file position ms) :
    position ≤ endOf position ms
      ∧ ∀ m ∈ ms, position ≤ m.begin_ ∧ m.begin_ < m.end_ ∧ m.end_ ≤ endOf position ms := by
  induction ms generalizing position with
  | nil => exact ⟨le_rfl, fun _ h => absurd h List.not_mem_nil⟩
  | cons m rest ih =>
    obtain ⟨hbegin, hlen, -, -, -, hrest⟩ := h
    obtain ⟨hle, hall⟩ := ih hrest
    have hpos : m.end_ = m.begin_ + m.bytes.length := rfl
    have hfixed : envelopePrefixBytes = 32 := rfl
    rw [endOf]
    refine ⟨by omega, ?_⟩
    intro m' hm'
    rcases List.mem_cons.mp hm' with rfl | hm'
    · exact ⟨hbegin.ge, by omega, hle⟩
    · obtain ⟨h₁, h₂, h₃⟩ := hall m' hm'
      exact ⟨by omega, h₂, h₃⟩

/-- The members that end by where a part of them ends are that part. -/
theorem filter_endOf {pre post : List Member} (h : Tiles codec identity file position (pre ++ post)) :
    (pre ++ post).filter (fun m => decide (m.end_ ≤ endOf position pre)) = pre := by
  obtain ⟨hpre, hpost⟩ := tiles_append.mp h
  rw [List.filter_append]
  have h₁ : pre.filter (fun m => decide (m.end_ ≤ endOf position pre)) = pre :=
    List.filter_eq_self.mpr fun m hm => decide_eq_true ((tiles_after hpre).2 m hm).2.2
  have h₂ : post.filter (fun m => decide (m.end_ ≤ endOf position pre)) = [] := by
    refine List.filter_eq_nil_iff.mpr ?_
    intro m hm
    have := (tiles_after hpost).2 m hm
    simp only [decide_eq_true_eq]
    omega
  rw [h₁, h₂, List.append_nil]

theorem whole_prefix (ms : List Member) : ∃ rest, ms = whole ms ++ rest := by
  induction ms with
  | nil => exact ⟨[], rfl⟩
  | cons m tail ih =>
    obtain ⟨rest, hrest⟩ := ih
    rw [whole]
    split
    · exact ⟨rest, by rw [List.cons_append, ← hrest]⟩
    · exact ⟨m :: tail, rfl⟩

theorem whole_whole (ms : List Member) : whole (whole ms) = whole ms := by
  induction ms with
  | nil => rfl
  | cons m rest ih =>
    rw [whole]
    split
    · next h => rw [whole, ih, if_pos h]
    · rfl

theorem whole_last {ms : List Member} {m : Member} (h : (whole ms).getLast? = some m) :
    m.endsWrite = true := by
  induction ms with
  | nil => cases h
  | cons first rest ih =>
    rw [whole] at h
    split at h
    · next hcond =>
      cases hw : whole rest with
      | nil =>
        rw [hw] at h hcond
        simp only [List.getLast?_singleton, Option.some.injEq] at h
        subst h
        simpa using hcond
      | cons second tail =>
        rw [hw, List.getLast?_cons_cons, ← hw] at h
        exact ih h
    · cases h

/-- Where a pass that ended its writes at `end_` so far ends them after more members. -/
def wholeEnd (end_ : Nat) (ms : List Member) : Nat :=
  ms.foldl (fun e m => if m.endsWrite then m.end_ else e) end_

theorem wholeEnd_eq_endOf (position : Nat) (ms : List Member) :
    wholeEnd position ms = endOf position (whole ms) := by
  induction ms generalizing position with
  | nil => rfl
  | cons m rest ih =>
    rw [wholeEnd, List.foldl_cons]
    have hfold := ih (if m.endsWrite then m.end_ else position)
    rw [wholeEnd] at hfold
    rw [hfold, whole]
    cases hm : m.endsWrite with
    | true => simp [endOf]
    | false =>
      cases hw : whole rest with
      | nil => simp [endOf]
      | cons next tail => simp [endOf]

/-! ## The content pass finds the content -/

/-- **The content pass** ends where the last whole write of the members does. -/
theorem contentPass_end {end_ left position : Nat} {open_ : Bool} {output found : HeadContent}
    (h : contentPass codec identity file end_ left position open_ output = .ok found) :
    found.end_ = wholeEnd output.end_ (walk codec identity file end_ left position) := by
  induction left generalizing position open_ output with
  | zero =>
    simp only [contentPass, Except.ok.injEq] at h
    subst h
    rfl
  | succ left ih =>
    rw [contentPass] at h
    rw [walk]
    split at h
    · cases h
    all_goals try (
      next hslot =>
      simp only [Except.ok.injEq] at h
      subst h
      rw [hslot]
      rfl)
    next bytes hslot =>
    rw [hslot]
    simp only
    split at h
    · next code hclaims =>
      rw [hclaims]
      split at h
      · cases h
      · simp only [Except.ok.injEq] at h
        subst h
        rfl
    · next claims hclaims =>
      rw [hclaims]
      simp only
      split at h
      · next howns =>
        simp only [Except.ok.injEq] at h
        subst h
        rw [howns]
        rfl
      · next howns =>
        have howns' : identity.owns position claims = true := by simpa using howns
        rw [if_pos howns', ih h, wholeEnd, wholeEnd, List.foldl_cons]
        cases hw : claims.endsWrite <;> simp [Member.endsWrite, Member.end_, hw]

/-! ## The visiting pass -/

/-- A member shown to the visitor, as content. -/
def Shows (identity : Identity) (v : Visit Prepare) (m : Member) : Prop :=
  v.survival = false ∧ v.begin_ = ⟨identity.incarnation, m.begin_⟩
    ∧ v.end_ = ⟨identity.incarnation, m.end_⟩ ∧ v.claims = m.claims

/-- A pass that went on over members: it showed each once, in order, and counted it. -/
structure Advanced (identity : Identity) (pass pass' : Pass Prepare) (pre : List Member) :
    Prop where
  shown : ∃ shown, pass'.visits = pass.visits ++ shown ∧ List.Forall₂ (Shows identity) shown pre
    ∧ pass'.report.prepares = pass.report.prepares + shown.length
    ∧ pass'.report.unresolved
      = pass.report.unresolved + shown.countP (fun v => decide (v.resolution ≠ .resolved))
  contentEnd : pass'.report.contentEnd = endOf pass.report.contentEnd pre
  writeEnd : pass'.writeEnd = wholeEnd pass.writeEnd pre
  begin_ : pass'.report.begin_ = pass.report.begin_
  fileBytes : pass'.report.fileBytes = pass.report.fileBytes

theorem Advanced.stopAt (pass : Pass Prepare) (stop : ScanStop) (cause : Option Errc) :
    Advanced identity pass (pass.stopAt stop cause) [] where
  shown := ⟨[], by simp [Pass.stopAt], .nil, rfl, rfl⟩
  contentEnd := rfl
  writeEnd := rfl
  begin_ := rfl
  fileBytes := rfl

theorem Advanced.cons {limits : Limits} {proceed : Visit Prepare → Bool} {pass pass' : Pass Prepare}
    {m : Member} {rest : List Member} {resolution : TargetResolution} {prepare : Option Prepare}
    {target : Option Target}
    (h : Advanced identity (pass.visit codec limits proceed identity m.begin_ m.bytes m.claims
      resolution prepare target) pass' rest) :
    Advanced identity pass pass' (m :: rest) := by
  obtain ⟨shown, hvisits, hall, hprepares, hunresolved⟩ := h.shown
  refine { shown := ⟨contentOf codec limits identity m.begin_ m.bytes m.claims resolution prepare
             target :: shown, ?_, .cons ⟨rfl, rfl, rfl, rfl⟩ hall, ?_, ?_⟩,
           contentEnd := h.contentEnd, writeEnd := h.writeEnd, begin_ := h.begin_,
           fileBytes := h.fileBytes }
  · rw [hvisits, Pass.visit, List.append_assoc]
    rfl
  · rw [hprepares, Pass.visit, List.length_cons]
    simp only
    omega
  · have hres : (contentOf codec limits identity m.begin_ m.bytes m.claims resolution prepare
        target).resolution = resolution := rfl
    rw [hunresolved, List.countP_cons, hres, Pass.visit]
    by_cases h : resolution = .resolved
    · simp [h]
    · simp only [h, if_false, ne_eq, not_false_iff, decide_true, if_true]
      omega

/-- Whether a write is open after members of which the first came `inside` one. -/
def insideAfter : Bool → List Member → Bool
  | inside, [] => inside
  | _, m :: rest => insideAfter (!m.endsWrite) rest

variable {resolve : Nat → Except Errc (Option Target)}

/-- What is visited has the claims the content pass saw. -/
theorem claims_of_visit {bytes : List UInt8} {claims claims' : Claims} {resolution : TargetResolution}
    {prepare : Option Prepare} {target : Option Target} (hclaims : codec.claims bytes = .ok claims)
    (h : decodeResolved codec identity position resolve bytes = .visit claims' resolution prepare target)
    : claims' = claims := by
  simp only [decodeResolved, hclaims] at h
  split at h
  · cases h
  · simp [decodeError, failsScan] at h
  · cases h
    rfl
  · split at h
    · rw [decodeError] at h
      split at h <;> cases h
    · cases h
      rfl

/-- **The visiting pass** over members back to back goes on over some of them and stops at the
    first it refuses. -/
theorem visitPass_spec {limits : Limits} {proceed : Visit Prepare → Bool}
    {content : Option HeadContent} {ms : List Member} {left position : Nat}
    {pass pass' : Pass Prepare} (inside : Bool)
    (htiles : Tiles codec identity file position ms) (hleft : endOf position ms - position ≤ left)
    (h : visitPass codec limits resolve proceed identity file (endOf position ms) content left
      position pass = .ok pass')
    (hgo : pass'.stopped = false) :
    ∃ pre post, ms = pre ++ post ∧ Advanced identity pass pass' pre
      ∧ stopsInside codec identity resolve inside pass.stamp ms
        = (!post.isEmpty && insideAfter inside pre) := by
  induction ms generalizing left position pass inside with
  | nil =>
    have hend : pass' = visitPass.atEnd content pass := by
      cases left with
      | zero => simpa [visitPass] using h.symm
      | succ left =>
        rw [visitPass, endOf, classify_end] at h
        simpa using h.symm
    refine ⟨[], [], rfl, ?_, rfl⟩
    rw [hend]
    cases content <;> exact .stopAt _ _ _
  | cons m rest ih =>
    obtain ⟨hbegin, hlen, hslot, hclaims, howns, hrest⟩ := htiles
    subst hbegin
    have hfixed : envelopePrefixBytes = 32 := rfl
    have hend : m.end_ = m.begin_ + m.bytes.length := rfl
    have hle := (tiles_after hrest).1
    rw [endOf] at h hleft
    cases left with
    | zero => omega
    | succ left =>
      rw [visitPass, hslot _ hle] at h
      simp only at h
      split at h
      · cases h
      · next why cause hdecode =>
        cases h
        refine ⟨[], m :: rest, rfl, .stopAt _ _ _, ?_⟩
        simp [stopsInside, refuses, hdecode, insideAfter]
      · next claims resolution prepare target hdecode =>
        obtain rfl := claims_of_visit hclaims hdecode
        split at h
        · next hstamp =>
          cases h
          refine ⟨[], m :: rest, rfl, .stopAt _ _ _, ?_⟩
          simp [stopsInside, refuses, hdecode, hstamp, insideAfter]
        · next hstamp =>
          split at h
          · next hstopped =>
            cases h
            rw [hstopped] at hgo
            cases hgo
          · obtain ⟨pre, post, hms, hadv, hinside⟩ := ih (!m.endsWrite) hrest
              (show endOf m.end_ rest - m.end_ ≤ left by omega) h
            refine ⟨m :: pre, post, by rw [hms]; rfl, hadv.cons, ?_⟩
            rw [stopsInside, if_neg (by simp [refuses, hdecode, hstamp])]
            exact hinside

/-! ## The probe -/

/-- A pass that went on after the content: what it showed lies at or after `position`, in order,
    and is no content. -/
structure Probed (identity : Identity) (position : Nat) (pass pass' : Pass Prepare) : Prop where
  shown : ∃ shown, pass'.visits = pass.visits ++ shown
    ∧ (∀ v ∈ shown, v.survival = true ∧ v.begin_.incarnation = identity.incarnation
      ∧ position ≤ v.begin_.position)
    ∧ shown.Pairwise (fun v w => v.begin_.position < w.begin_.position)
  contentEnd : pass'.report.contentEnd = pass.report.contentEnd
  begin_ : pass'.report.begin_ = pass.report.begin_
  prepares : pass'.report.prepares = pass.report.prepares
  unresolved : pass'.report.unresolved = pass.report.unresolved

theorem Probed.refl (pass : Pass Prepare) :
    Probed identity position pass pass where
  shown := ⟨[], (List.append_nil _).symm, fun _ h => absurd h List.not_mem_nil, .nil⟩
  contentEnd := rfl
  begin_ := rfl
  prepares := rfl
  unresolved := rfl

theorem Probed.mono {position next : Nat} {pass pass' : Pass Prepare}
    (h : Probed identity next pass pass') (hle : position ≤ next) :
    Probed identity position pass pass' := by
  obtain ⟨shown, hvisits, hall, horder⟩ := h.shown
  refine { h with shown := ⟨shown, hvisits, ?_, horder⟩ }
  intro v hv
  obtain ⟨h₁, h₂, h₃⟩ := hall v hv
  exact ⟨h₁, h₂, hle.trans h₃⟩

/-- **The probe** shows survivals alone, each once and in file order. -/
theorem probeWalHead_spec {proceed : Visit Prepare → Bool} {end_ left position : Nat}
    {pass pass' : Pass Prepare} (hend : end_ ≤ file.length)
    (h : probeWalHead codec proceed identity file end_ left position pass = .ok pass') :
    Probed identity position pass pass' := by
  induction left generalizing position pass with
  | zero =>
    cases h
    exact .refl _
  | succ left ih =>
    rw [probeWalHead] at h
    split at h
    · cases h
    · cases h
      exact .refl _
    · next bytes hslot =>
      obtain ⟨hlen, -, -⟩ := classify_object hslot hend
      have hfixed : envelopePrefixBytes = 32 := rfl
      simp only at h
      split at h
      · split at h
        · cases h
        · exact (ih h).mono (Nat.le_add_right _ _)
      · next claims hclaims =>
        split at h
        · exact (ih h).mono (Nat.le_add_right _ _)
        · split at h
          · cases h
            refine { shown := ⟨[survivalOf identity position bytes claims], rfl, ?_, ?_⟩,
                     contentEnd := rfl, begin_ := rfl, prepares := rfl, unresolved := rfl }
            · intro v hv
              obtain rfl := List.mem_singleton.mp hv
              exact ⟨rfl, rfl, le_rfl⟩
            · exact List.pairwise_singleton _ _
          · have hnext := ih h
            obtain ⟨shown, hvisits, hall, horder⟩ := hnext.shown
            refine { hnext with shown := ⟨survivalOf identity position bytes claims :: shown,
                       ?_, ?_, ?_⟩ }
            · rw [hvisits, List.append_assoc]
              rfl
            · intro v hv
              rcases List.mem_cons.mp hv with rfl | hv
              · exact ⟨rfl, rfl, le_rfl⟩
              · obtain ⟨h₁, h₂, h₃⟩ := hall v hv
                exact ⟨h₁, h₂, by omega⟩
            · refine List.pairwise_cons.mpr ⟨?_, horder⟩
              intro v hv
              have hafter := (hall v hv).2.2
              change position < v.begin_.position
              omega
    · simp only at h
      split at h
      · cases h
        exact .refl _
      · refine (ih h).mono ?_
        have := Nat.div_add_mod position identity.alignment
        have := Nat.mod_lt position identity.alignment_pos
        rw [Nat.succ_mul, Nat.mul_comm]
        omega

theorem whole_of_insideAfter (inside : Bool) {ms : List Member} (h : ms ≠ []) :
    (insideAfter inside ms = false → whole ms = ms)
      ∧ (insideAfter inside ms = true → (whole ms).length < ms.length) := by
  induction ms generalizing inside with
  | nil => exact absurd rfl h
  | cons m rest ih =>
    cases rest with
    | nil => cases hm : m.endsWrite <;> simp [insideAfter, whole, hm]
    | cons next tail =>
      obtain ⟨hclosed, hopen⟩ := ih (!m.endsWrite) (List.cons_ne_nil _ _)
      rw [insideAfter]
      refine ⟨?_, ?_⟩
      · intro hin
        rw [whole, hclosed hin]
        simp
      · intro hin
        have hlt := hopen hin
        rw [whole]
        split
        · simpa using hlt
        · simp

theorem endOf_eq_iff {pre post : List Member} (h : Tiles codec identity file position (pre ++ post)) :
    endOf position pre = endOf position (pre ++ post) ↔ post = [] := by
  constructor
  · intro heq
    cases post with
    | nil => rfl
    | cons m rest =>
      have hm : m ∈ pre ++ m :: rest := List.mem_append_right _ List.mem_cons_self
      have hfilter := filter_endOf h
      rw [heq] at hfilter
      have hall : (pre ++ m :: rest).filter
          (fun m' => decide (m'.end_ ≤ endOf position (pre ++ m :: rest))) = pre ++ m :: rest :=
        List.filter_eq_self.mpr fun m' hm' => decide_eq_true ((tiles_after h).2 m' hm').2.2
      rw [hall] at hfilter
      simpa using congrArg List.length hfilter
  · rintro rfl
    rw [List.append_nil]

/-! ## Exactness -/

/-- The members of a file from where its scan begins. -/
def Link.members (codec : PrepareCodec Prepare) (link : Link) (begin_ : Nat) : List Member :=
  walk codec link.identity link.file link.file.length (link.file.length - begin_) begin_

/-- **What an exact scan of the head is.** What is visited as content are the members up to the
    content's end, each once and in file order; the content ends where it began or with a whole
    write; whatever is visited after it is visited once, as a survival; and the counts are
    those of the visits. -/
structure Exact (codec : PrepareCodec Prepare) (link : Link) (pass : Pass Prepare) : Prop where
  content : List.Forall₂ (Shows link.identity) (pass.visits.filter fun v => !v.survival)
    ((link.members codec pass.report.begin_).filter
      fun m => decide (m.end_ ≤ pass.report.contentEnd))
  write : pass.report.contentEnd = pass.report.begin_
    ∨ ∃ m ∈ link.members codec pass.report.begin_, m.endsWrite = true
      ∧ m.end_ = pass.report.contentEnd
  survival : ∀ v ∈ pass.visits, pass.report.contentEnd ≤ v.begin_.position → v.survival = true
  order : pass.visits.Pairwise fun v w => v.begin_.position < w.begin_.position
  prepares : pass.report.prepares = (pass.visits.filter fun v => !v.survival).length
  unresolved : pass.report.unresolved
    = (pass.visits.filter fun v => !v.survival).countP fun v => decide (v.resolution ≠ .resolved)

theorem shows_of_mem {shown : List (Visit Prepare)} {pre : List Member}
    (h : List.Forall₂ (Shows identity) shown pre) {v : Visit Prepare} (hv : v ∈ shown) :
    ∃ m, m ∈ pre ∧ Shows identity v m := by
  induction h with
  | nil => cases hv
  | cons hm _ ih =>
    rcases List.mem_cons.mp hv with rfl | hv
    · exact ⟨_, List.mem_cons_self, hm⟩
    · obtain ⟨m, hmem, hs⟩ := ih hv
      exact ⟨m, List.mem_cons_of_mem _ hmem, hs⟩

theorem shows_pairwise {shown : List (Visit Prepare)} {pre : List Member}
    (htiles : Tiles codec identity file position pre) (h : List.Forall₂ (Shows identity) shown pre) :
    shown.Pairwise fun v w => v.begin_.position < w.begin_.position := by
  induction h generalizing position with
  | nil => exact .nil
  | @cons v m shown pre hm hall ih =>
    obtain ⟨hbegin, hlen, -, -, -, hrest⟩ := htiles
    have hfixed : envelopePrefixBytes = 32 := rfl
    have hend : m.end_ = m.begin_ + m.bytes.length := rfl
    refine List.pairwise_cons.mpr ⟨?_, ih hrest⟩
    intro w hw
    obtain ⟨m', hm', -, hb, -⟩ := shows_of_mem hall hw
    have hafter := ((tiles_after hrest).2 m' hm').1
    rw [hm.2.1, hb]
    change m.begin_ < m'.begin_
    omega

theorem endOf_of_getLast (position : Nat) {pre : List Member} {m : Member}
    (h : pre.getLast? = some m) : endOf position pre = m.end_ := by
  induction pre generalizing position with
  | nil => cases h
  | cons first rest ih =>
    cases rest with
    | nil =>
      obtain rfl : first = m := by simpa using h
      rfl
    | cons next tail =>
      rw [List.getLast?_cons_cons] at h
      exact ih first.end_ h

/-- A scan whose content is the members it visited, with what a probe found after them. -/
theorem exact_of_visits {link : Link} {pass : Pass Prepare} {shown survivals : List (Visit Prepare)}
    {pre post : List Member} (hvisits : pass.visits = shown ++ survivals)
    (hmembers : link.members codec pass.report.begin_ = pre ++ post)
    (hshown : List.Forall₂ (Shows link.identity) shown pre)
    (hend : pass.report.contentEnd = endOf pass.report.begin_ pre)
    (hwrite : whole pre = pre)
    (hafter : ∀ v ∈ survivals, v.survival = true ∧ pass.report.contentEnd ≤ v.begin_.position)
    (horder : survivals.Pairwise fun v w => v.begin_.position < w.begin_.position)
    (hprepares : pass.report.prepares = shown.length)
    (hunresolved : pass.report.unresolved
      = shown.countP fun v => decide (v.resolution ≠ .resolved)) :
    Exact codec link pass := by
  have htiles : Tiles codec link.identity link.file pass.report.begin_ (pre ++ post) :=
    hmembers ▸ tiles_walk le_rfl
  have hcontent : (pass.visits.filter fun v => !v.survival) = shown := by
    rw [hvisits, List.filter_append,
      List.filter_eq_self.mpr fun v hv => by simp [(shows_of_mem hshown hv).choose_spec.2.1],
      List.filter_eq_nil_iff.mpr fun v hv => by simp [(hafter v hv).1], List.append_nil]
  have hpre := (tiles_append.mp htiles).1
  have hbefore : ∀ v ∈ shown, v.survival = false
      ∧ v.begin_.position < pass.report.contentEnd := by
    intro v hv
    obtain ⟨m, hm, hs, hb, -⟩ := shows_of_mem hshown hv
    obtain ⟨-, h₁, h₂⟩ := (tiles_after hpre).2 m hm
    refine ⟨hs, ?_⟩
    rw [hb, hend]
    exact lt_of_lt_of_le h₁ h₂
  refine { content := ?_, write := ?_, survival := ?_, order := ?_,
           prepares := by rw [hcontent, hprepares],
           unresolved := by rw [hcontent, hunresolved] }
  · rw [hcontent, hmembers, hend, filter_endOf htiles]
    exact hshown
  · cases hlast : pre.getLast? with
    | none =>
      rw [List.getLast?_eq_none_iff] at hlast
      left
      rw [hend, hlast, endOf]
    | some m =>
      right
      refine ⟨m, ?_, whole_last (hwrite.symm ▸ hlast), ?_⟩
      · rw [hmembers]
        exact List.mem_append_left _ (List.mem_of_getLast? hlast)
      · rw [hend, endOf_of_getLast _ hlast]
  · intro v hv hle
    rw [hvisits] at hv
    rcases List.mem_append.mp hv with hv | hv
    · exact absurd (hbefore v hv).2 (not_lt.mpr hle)
    · exact (hafter v hv).1
  · rw [hvisits, List.pairwise_append]
    refine ⟨shows_pairwise hpre hshown, horder, ?_⟩
    intro v hv w hw
    exact lt_of_lt_of_le (hbefore v hv).2 (hafter w hw).2

/-! ## The scan of the head -/

section

variable {limits : Limits} {proceed : Visit Prepare → Bool} {cutoff : Option Cursor} {link : Link}
  {pass : Pass Prepare}

/-- Whether the visiting pass refuses a member of the content inside a write it visited a member
    of. -/
def Link.stopsInside (codec : PrepareCodec Prepare) (resolve : Nat → Except Errc (Option Target))
    (link : Link) (begin_ : Nat) : Bool :=
  WalScan.stopsInside codec link.identity resolve false link.identity.dataStart
    (whole (link.members codec begin_))

/-- The three passes over a head. -/
theorem scanFile_head (hsealed : link.sealedEnd = none) (hlive : limits.bounds link = false)
    (h : scanFile codec limits resolve proceed link true cutoff = .ok pass)
    (hgo : pass.stopped = false) :
    pass = ((link.fresh cutoff : Pass Prepare).stopAt .torn none)
        ∧ link.file.length < (link.fresh cutoff : Pass Prepare).report.begin_
      ∨ ∃ content visited, (link.fresh cutoff : Pass Prepare).report.begin_ ≤ link.file.length
        ∧ scanWalHeadContent codec link.identity link.file
            (link.fresh cutoff : Pass Prepare).report.begin_ link.file.length = .ok content
        ∧ visitPass codec limits resolve proceed link.identity link.file content.end_
            (some content) (content.end_ - (link.fresh cutoff : Pass Prepare).report.begin_)
            (link.fresh cutoff : Pass Prepare).report.begin_ (link.fresh cutoff) = .ok visited
        ∧ visited.stopped = false
        ∧ (visited.rewind content).prove codec limits proceed link = .ok pass := by
  have hend : link.scanEnd limits = link.file.length := by
    simp only [Link.scanEnd, hsealed, Option.getD_none]
    split
    · next live hl =>
      simp only [Limits.bounds, hl, Option.any_some, decide_eq_false_iff_not] at hlive
      rw [if_neg hlive]
    · rfl
  simp only [scanFile, hend, hlive, hsealed, lt_irrefl, false_or, Bool.not_false, Bool.and_true,
    if_true, bind, Except.bind, pure, Except.pure] at h
  split at h
  · next hlt => exact .inl ⟨(Except.ok.inj h).symm, hlt⟩
  · next hle =>
    right
    split at h
    · cases h
    next content hcontent =>
    split at h
    · cases h
    next visited hvisited =>
    split at h
    · cases h
    next proved hproved =>
    cases h
    refine ⟨content, visited, not_lt.mp hle, hcontent, hvisited, ?_, hproved⟩
    by_contra hs
    have hs' : visited.stopped = true := by simpa using hs
    have hrewind : visited.rewind content = visited := by simp [Pass.rewind, hs']
    rw [hrewind, Pass.prove, if_neg (by simp [hs'])] at hproved
    cases hproved
    rw [hs'] at hgo
    cases hgo

theorem Pass.prove_spec {before : Pass Prepare}
    (hbytes : before.report.fileBytes = link.file.length)
    (h : before.prove codec limits proceed link = .ok pass) :
    Probed link.identity before.report.contentEnd before pass := by
  rw [Pass.prove] at h
  split at h
  · exact probeWalHead_spec hbytes.le h
  · cases h
    exact .refl _

/-- Where the content ends once the pass over it stopped. -/
theorem Pass.rewind_spec {visited : Pass Prepare} (content : HeadContent)
    (hgo : visited.stopped = false) :
    (visited.rewind content).visits = visited.visits
      ∧ (visited.rewind content).report.begin_ = visited.report.begin_
      ∧ (visited.rewind content).report.fileBytes = visited.report.fileBytes
      ∧ (visited.rewind content).report.prepares = visited.report.prepares
      ∧ (visited.rewind content).report.unresolved = visited.report.unresolved
      ∧ (visited.rewind content).report.contentEnd
        = if visited.report.contentEnd = content.end_ then content.end_ else visited.writeEnd := by
  rw [Pass.rewind]
  by_cases h : visited.report.contentEnd = content.end_
  · simp [h]
  · simp [h, hgo]

/-- **Exactly when the scan of a head is exact.** -/
theorem scanFile_exact_iff (hsealed : link.sealedEnd = none) (hlive : limits.bounds link = false)
    (h : scanFile codec limits resolve proceed link true cutoff = .ok pass)
    (hgo : pass.stopped = false) :
    Exact codec link pass ↔ link.stopsInside codec resolve pass.report.begin_ = false := by
  rcases scanFile_head hsealed hlive h hgo with ⟨rfl, hlt⟩ | ⟨content, visited, hle, hcontent,
    hvisited, hgo', hproved⟩
  · -- the scan begins past the file's end: no member, and nothing visited
    have hmembers : link.members codec (link.fresh cutoff : Pass Prepare).report.begin_ = [] := by
      rw [Link.members, Nat.sub_eq_zero_of_le hlt.le]
      rfl
    refine ⟨fun _ => ?_, fun _ => ?_⟩
    · change link.stopsInside codec resolve (link.fresh cutoff : Pass Prepare).report.begin_ = false
      rw [Link.stopsInside, hmembers]
      rfl
    · exact exact_of_visits (List.append_nil []).symm (hmembers.trans (List.append_nil []).symm)
        .nil rfl rfl (fun _ hv => by cases hv) .nil rfl rfl
  · -- the content pass found the whole writes of the members
    have hfound := contentPass_end hcontent
    rw [wholeEnd_eq_endOf] at hfound
    change content.end_ = endOf _ (whole (link.members codec _)) at hfound
    obtain ⟨tail, htail⟩ := whole_prefix
      (link.members codec (link.fresh cutoff : Pass Prepare).report.begin_)
    have htiles : Tiles codec link.identity link.file
        (link.fresh cutoff : Pass Prepare).report.begin_
        (link.members codec (link.fresh cutoff : Pass Prepare).report.begin_) :=
      tiles_walk le_rfl
    have hwhole := (tiles_append.mp (htail ▸ htiles)).1
    rw [hfound] at hvisited
    obtain ⟨pre, post, hsplit, hadv, hinside⟩ := visitPass_spec false hwhole le_rfl hvisited hgo'
    obtain ⟨shown, hshown, hall, hprepares, hunresolved⟩ := hadv.shown
    obtain ⟨hv, hb, hf, hp, hu, hc⟩ := Pass.rewind_spec content hgo'
    have hprobed := Pass.prove_spec (hf.trans hadv.fileBytes) hproved
    obtain ⟨survivals, hsurvivals, hafter, horder⟩ := hprobed.shown
    have hbegin : pass.report.begin_ = (link.fresh cutoff : Pass Prepare).report.begin_ :=
      hprobed.begin_.trans (hb.trans hadv.begin_)
    have hvisits : pass.visits = shown ++ survivals := by
      rw [hsurvivals, hv, hshown]
      rfl
    have hstops : link.stopsInside codec resolve pass.report.begin_
        = (!post.isEmpty && insideAfter false pre) := by
      rw [hbegin, Link.stopsInside]
      exact hinside
    have hmembers : link.members codec pass.report.begin_ = pre ++ (post ++ tail) := by
      rw [hbegin, htail, hsplit, List.append_assoc]
    have hsame : pass.report.contentEnd = (visited.rewind content).report.contentEnd :=
      hprobed.contentEnd
    have hpart : visited.report.contentEnd = endOf pass.report.begin_ pre := by
      rw [hadv.contentEnd, hbegin]
      rfl
    have hwrites : visited.writeEnd = endOf pass.report.begin_ (whole pre) := by
      rw [hadv.writeEnd, hbegin, ← wholeEnd_eq_endOf]
      rfl
    have hcounts : pass.report.prepares = shown.length
        ∧ pass.report.unresolved
          = shown.countP fun v => decide (v.resolution ≠ .resolved) := by
      rw [hprobed.prepares, hprobed.unresolved, hp, hu, hprepares, hunresolved]
      exact ⟨Nat.zero_add _, Nat.zero_add _⟩
    -- the content ends where the members visited do, unless a write was left open
    have hall' : (pass.report.contentEnd = endOf pass.report.begin_ pre ∧ whole pre = pre) →
        Exact codec link pass := by
      rintro ⟨hend, hpre⟩
      refine exact_of_visits hvisits hmembers hall hend hpre ?_ horder hcounts.1 hcounts.2
      intro v hv
      obtain ⟨h₁, -, h₂⟩ := hafter v hv
      exact ⟨h₁, hsame ▸ h₂⟩
    have hsplit' : Tiles codec link.identity link.file pass.report.begin_ (pre ++ post) := by
      rw [hbegin, ← hsplit]
      exact hwhole
    have hfound' : content.end_ = endOf pass.report.begin_ (pre ++ post) := by
      rw [hbegin, ← hsplit]
      exact hfound
    rw [hstops]
    by_cases hpost : post = []
    · subst hpost
      rw [List.append_nil] at hfound' hsplit
      rw [hpart, hfound', if_pos rfl] at hc
      refine ⟨fun _ => rfl, fun _ => hall' ⟨hsame.trans hc, ?_⟩⟩
      rw [← hsplit, whole_whole]
    · have hne : visited.report.contentEnd ≠ content.end_ := by
        rw [hpart, hfound']
        exact fun heq => hpost ((endOf_eq_iff hsplit').mp heq)
      rw [if_neg hne, hwrites] at hc
      have hnil : post.isEmpty = false := by simpa using hpost
      rw [hnil, Bool.not_false, Bool.true_and]
      by_cases hpre : pre = []
      · subst hpre
        exact ⟨fun _ => rfl, fun _ => hall' ⟨hsame.trans hc, rfl⟩⟩
      · obtain ⟨hclosed, hopen⟩ := whole_of_insideAfter false hpre
        refine ⟨fun hexact => ?_, fun hin => ?_⟩
        · -- a write left open puts the content's end before a member that was visited
          by_contra hin
          have hlt := hopen (by simpa using hin)
          have hlen := hexact.content.length_eq
          rw [← hexact.prepares, hcounts.1, hall.length_eq, hmembers, hsame, hc] at hlen
          obtain ⟨rest, hrest⟩ := whole_prefix pre
          have hmembers' : pre ++ (post ++ tail) = whole pre ++ (rest ++ (post ++ tail)) := by
            rw [← List.append_assoc (whole pre), ← hrest]
          have hpart' : Tiles codec link.identity link.file pass.report.begin_
              (whole pre ++ (rest ++ (post ++ tail))) := by
            rw [← hmembers', ← hmembers]
            exact tiles_walk le_rfl
          rw [hmembers', filter_endOf hpart'] at hlen
          omega
        · exact hall' ⟨(hclosed hin).symm ▸ hsame.trans hc, hclosed hin⟩

/-- A scan of a chain that came to its end scanned the head last. -/
theorem scanChain_head {olds : List Link} {output result : ScanResult Prepare}
    (hlive : ∀ l ∈ olds ++ [link], limits.bounds l = false)
    (h : scanChain codec limits resolve proceed cutoff (olds ++ [link]) output = .ok result)
    (hdone : result.complete = true) (hintact : result.corrupt = false)
    (hfresh : output.complete = false) :
    ∃ pass, result.files.getLast? = some pass ∧ pass.stopped = false
      ∧ result.contentEnd = some ⟨link.identity.incarnation, pass.report.contentEnd⟩
      ∧ scanFile codec limits resolve proceed link true cutoff = .ok pass := by
  induction olds generalizing output with
  | nil =>
    have hbound := hlive link (by simp)
    rw [List.nil_append, scanChain] at h
    split at h
    · cases h
    next pass hpass =>
    simp only [List.isEmpty_nil, Bool.true_or, if_true, hbound, Bool.false_eq_true, if_false,
      reduceCtorEq, false_and] at h
    split at h
    · cases h
      rw [hfresh] at hdone
      cases hdone
    · next hgo =>
      rw [scanChain] at h
      cases h
      exact ⟨pass, by simp, by simpa using hgo, rfl, hpass⟩
  | cons old rest ih =>
    have hbound := hlive old (by simp)
    have hempty : (rest ++ [link]).isEmpty = false := by simp
    rw [List.cons_append, scanChain] at h
    split at h
    · cases h
    next pass hpass =>
    simp only [hempty, hbound, Bool.or_false, Bool.false_eq_true, if_false, true_and] at h
    split at h
    · cases h
      rw [hfresh] at hdone
      cases hdone
    · split at h
      · cases h
        cases hintact
      · exact ih (fun l hl => hlive l (by simp at hl ⊢; tauto)) h hfresh

/-- **Exactly when `scan_local_wal` is exact about the head**: no member of its content is refused
    by the visiting pass inside a write that pass has visited a member of. -/
theorem scanLocalWal_exact_iff {olds : List Link} {result : ScanResult Prepare}
    (hsealed : link.sealedEnd = none) (hlive : ∀ l ∈ olds ++ [link], limits.bounds l = false)
    (h : scanLocalWal codec limits resolve proceed cutoff (olds ++ [link]) = .ok result)
    (hdone : result.complete = true) (hintact : result.corrupt = false) :
    ∃ pass, result.files.getLast? = some pass
      ∧ result.contentEnd = some ⟨link.identity.incarnation, pass.report.contentEnd⟩
      ∧ (Exact codec link pass
        ↔ link.stopsInside codec resolve pass.report.begin_ = false) := by
  obtain ⟨pass, hlast, hgo, hend, hfile⟩ := scanChain_head hlive h hdone hintact rfl
  exact ⟨pass, hlast, hend, scanFile_exact_iff hsealed (hlive link (by simp)) hfile hgo⟩

end
end

/-! ## A head of one write

Two PREPAREs of one write, each 32 bytes from byte 64 on. Of a PREPARE's bytes the second names
its position, the third says whether it ends the write, and the sixth whether its child decodes. -/

/-- A codec of 32-byte objects. -/
def plainCodec : PrepareCodec Unit where
  peekPrefix raw := if headerBytes raw = 32 then .ok 32 else .error ⟨.malformedData, false⟩
  headerCrc _ := true
  extents raw length h := by
    split at h
    · next h32 =>
      cases h
      exact ⟨h32.ge, h32.le⟩
    · cases h
  claims bytes := .ok
    { incarnation := 1, walPosition := 32 * bytes[1]!.toNat, alignment := 64, profile := 1
      target := 5, routingEpoch := 0, physicalBegin := 0, targetPosition := 4096
      endsWrite := bytes[2]! = 1, walCertifiedEnd := 64 }
  prepare bytes _ := if bytes[5]! = 1 then .error .malformedData else .ok ()
  digest _ := 0

/-- A PREPARE at a multiple of 32 bytes. -/
def plainPrepare (place ends broken : UInt8) : List UInt8 :=
  [1, place, ends, 0, 0, broken, 0, 0, 0, 0, 32] ++ List.replicate 21 0

theorem plain_pos : 0 < 64 := by decide

/-- A head of one write, its second child broken or not. -/
def plainHead (broken : UInt8) : Link where
  identity := { incarnation := 1, alignment := 64, profile := 1, dataStart := 64, alignment_pos := plain_pos }
  sealedEnd := none
  file := List.replicate 64 0 ++ plainPrepare 2 0 0 ++ plainPrepare 3 1 broken

/-- A catalog of one segment. -/
def plainCatalog (segment : Nat) : Except Errc (Option Target) :=
  .ok (if segment = 5 then some ⟨5, 4096, 4096, 1, 1⟩ else none)

def plainScan (broken : UInt8) : Except Errc (ScanResult Unit) :=
  scanLocalWal plainCodec { prove := true } plainCatalog (fun _ => true) none [plainHead broken]

/-- What the scan of one file came to: where it began and ended, what it counted and what it
    showed. -/
structure Summary where
  begin_ : Nat
  contentEnd : Nat
  prepares : Nat
  visits : List (Nat × Bool)
  deriving DecidableEq

/-- With it, whether the whole scan is complete and corrupt. -/
def ScanResult.summary (r : ScanResult Unit) : Bool × Bool × List Summary :=
  (r.complete, r.corrupt, r.files.map fun pass => ⟨pass.report.begin_, pass.report.contentEnd,
    pass.report.prepares, pass.visits.map fun v => (v.begin_.position, v.survival)⟩)

theorem plainScan_of_summary (broken : UInt8) (file : Summary)
    (h : (plainScan broken).toOption.map ScanResult.summary = some (true, false, [file])) :
    ∃ result pass, plainScan broken = .ok result ∧ result.complete = true
      ∧ result.corrupt = false ∧ result.files = [pass] ∧ pass.report.begin_ = file.begin_
      ∧ pass.report.contentEnd = file.contentEnd ∧ pass.report.prepares = file.prepares
      ∧ pass.visits.map (fun v => (v.begin_.position, v.survival)) = file.visits := by
  cases hscan : plainScan broken with
  | error why =>
    rw [hscan] at h
    cases h
  | ok result =>
    rw [hscan] at h
    simp only [Except.toOption, Option.map_some, Option.some.injEq, ScanResult.summary,
      Prod.mk.injEq, List.map_eq_singleton_iff] at h
    obtain ⟨hcomplete, hcorrupt, pass, hfiles, rfl⟩ := h
    exact ⟨result, pass, rfl, hcomplete, hcorrupt, hfiles, rfl, rfl, rfl, rfl⟩

/-- An intact head is scanned exactly. -/
theorem plainHead_exact : ∃ result pass, plainScan 0 = .ok result
    ∧ result.files.getLast? = some pass ∧ pass.report.contentEnd = 128
    ∧ Exact plainCodec (plainHead 0) pass := by
  obtain ⟨result, pass, hscan, hcomplete, hcorrupt, hfiles, hbegin, hend, -, -⟩ :=
    plainScan_of_summary 0 ⟨64, 128, 2, [(64, false), (96, false)]⟩
      (by decide +kernel)
  obtain ⟨pass', hlast, -, hiff⟩ := scanLocalWal_exact_iff
    (show (plainHead 0).sealedEnd = none from rfl)
    (show ∀ l ∈ [] ++ [plainHead 0], Limits.bounds { prove := true } l = false by decide)
    hscan hcomplete hcorrupt
  obtain rfl : pass = pass' := by
    rw [hfiles] at hlast
    exact Option.some.inj hlast
  refine ⟨result, pass, hscan, hlast, hend, hiff.mpr ?_⟩
  rw [hbegin]
  decide +kernel

/-- **A member visited twice.** The second PREPARE of the write is refused for its child, the
    content ends where the write began, and the first PREPARE, shown as content already, is
    shown again as a survival. -/
theorem plainHead_twice : ∃ result pass, plainScan 1 = .ok result ∧ result.complete = true
    ∧ result.corrupt = false ∧ result.files = [pass] ∧ pass.report.contentEnd = 64
    ∧ pass.report.prepares = 1
    ∧ pass.visits.map (fun v => (v.begin_.position, v.survival))
      = [(64, false), (64, true), (96, true)]
    ∧ ¬ Exact plainCodec (plainHead 1) pass := by
  obtain ⟨result, pass, hscan, hcomplete, hcorrupt, hfiles, -, hend, hprepares, hvisits⟩ :=
    plainScan_of_summary 1 ⟨64, 64, 1, [(64, false), (64, true), (96, true)]⟩
      (by decide +kernel)
  refine ⟨result, pass, hscan, hcomplete, hcorrupt, hfiles, hend, hprepares, hvisits, ?_⟩
  intro hexact
  have horder := hexact.order.map (fun v : Visit Unit => (v.begin_.position, v.survival))
    (S := fun a b => a.1 < b.1) (fun _ _ h => h)
  rw [hvisits] at horder
  revert horder
  decide

end KwaqueStorage.WalScan
