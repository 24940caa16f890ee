import KwaqueStorage.Codec.Envelope

/-!
# Leave to work

Code that runs long asks for leave before each piece of work. `cooperative_work` grants a quantum of bytes
and items at a time. A quantum that is used up is filled again, after giving way to others or at once, so
what is left of it decides nothing: a piece is refused when it exceeds a whole quantum, or when an abort
was requested. When that is, no piece of work can know, so it is a parameter.
-/

namespace KwaqueStorage.Codec

open Layout Lib

theorem ceilings_valid : LimitsConfig.valid {} = true := by decide

/-- The ceilings themselves. -/
def ceilings : CodecLimits := { valid := ceilings_valid }

theorem one_byte_valid : LimitsConfig.valid { maxWorkBytes := 1 } = true := by decide

/-- `cooperative_work`. An abort is looked for at a place of the code before its work is admitted, and
    again after. -/
structure Work (Place : Type) where
  policy : CodecLimits
  aborted : Place → Bool → Bool

namespace Work

variable {Place ε : Type} {work : Work Place} {place : Place} {bytes items : Nat} {fail : Errc → ε} {u : Unit}

/-- `poll`. -/
def poll (work : Work Place) (place : Place) (after : Bool) (fail : Errc → ε) : Except ε Unit :=
  require (work.aborted place after = false) (fail .aborted)

/-- `admit`: a piece without bytes and items counts as one item. -/
def admits (work : Work Place) (place : Place) (bytes items : Nat) (fail : Errc → ε) : Except ε Unit := do
  work.poll place false fail
  let items := if bytes = 0 ∧ items = 0 then 1 else items
  require (bytes ≤ work.policy.config.maxWorkBytes ∧ items ≤ work.policy.config.maxWorkItems)
    (fail .resourceExhausted)

/-- Work that is admitted, with the look after it. -/
def spend (work : Work Place) (place : Place) (bytes items : Nat) (fail : Errc → ε) : Except ε Unit := do
  work.admits place bytes items fail
  work.poll place true fail

/-- No abort is requested. -/
def Unaborted (work : Work Place) : Prop := ∀ place after, work.aborted place after = false

theorem poll_ok (h : work.Unaborted) {after : Bool} : work.poll place after fail = .ok () :=
  require_eq_ok.mpr (h place after)

theorem spend_ok (h : work.Unaborted) (hbytes : bytes ≤ work.policy.config.maxWorkBytes)
    (hitems : max items 1 ≤ work.policy.config.maxWorkItems) : work.spend place bytes items fail = .ok () := by
  unfold spend admits
  simp only [bind_eq_ok, poll_ok h, require_eq_ok, exists_const, true_and, and_true]
  refine ⟨hbytes, ?_⟩
  split
  next => omega
  next => omega

/-- A quantum holds a byte and an item at least. -/
theorem quanta_pos (policy : Limits) : 0 < policy.config.maxWorkBytes ∧ 0 < policy.config.maxWorkItems := by
  have h := policy.valid
  unfold LimitsConfig.valid at h
  rw [List.all_eq_true] at h
  have hbytes := h (policy.config.maxWorkBytes, 65536) (by simp [LimitsConfig.toList])
  have hitems := h (policy.config.maxWorkItems, 256) (by simp [LimitsConfig.toList])
  exact ⟨(of_decide_eq_true hbytes).1, (of_decide_eq_true hitems).1⟩

/-- Work that is granted fits a quantum. -/
theorem fits_of_spend (h : work.spend place bytes items fail = .ok u) :
    bytes ≤ work.policy.config.maxWorkBytes ∧ items ≤ work.policy.config.maxWorkItems := by
  unfold spend admits at h
  simp only [bind_eq_ok, require_eq_ok, exists_const] at h
  obtain ⟨⟨_, _, hbytes, hitems⟩, _⟩ := h
  refine ⟨hbytes, ?_⟩
  split at hitems
  next hzero => omega
  next => exact hitems

end Work

end KwaqueStorage.Codec
