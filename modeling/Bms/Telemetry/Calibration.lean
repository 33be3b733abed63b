import Bms.Reasoning.FlagHistory
import Bms.Telemetry.ValidityMasks

/-!
# Calibration and validity

`is_valid` looks at `VALID`, `STALE` and `FAULT_COMM` and not at `CALIBRATING`.  A calibrating sensor
is reported valid exactly when a step lets `VALID` and `CALIBRATING` stand together with neither of
the other two flags up.
-/

open Bms.Reasoning Bms.Types

namespace Bms.Telemetry

-- The mask after a run of steps on a default-constructed one.
def runValidity (steps : List ValidityStep) : ValidityMask := steps.foldl ValidityStep.exec {}

/-- The step does not let `VALID` and `CALIBRATING` stand together without `STALE` or `FAULT_COMM`,
by the flags of the mask before the step and of the argument. -/
def StepSafe (m : ValidityMask) (u : ValidityStep) : Prop :=
  match u.effect with
  | .raise v =>
      m.has .valid ∨ v.contains .valid → m.has .calibrating ∨ v.contains .calibrating →
        m.has .stale ∨ v.contains .stale ∨ m.has .faultComm ∨ v.contains .faultComm
  | .lower v =>
      m.has .valid ∧ ¬ v.contains .valid → m.has .calibrating ∧ ¬ v.contains .calibrating →
        m.has .stale ∧ ¬ v.contains .stale ∨ m.has .faultComm ∧ ¬ v.contains .faultComm
  | .keep v =>
      m.has .valid ∧ v.contains .valid → m.has .calibrating ∧ v.contains .calibrating →
        m.has .stale ∧ v.contains .stale ∨ m.has .faultComm ∧ v.contains .faultComm
  | .replace v =>
      v.contains .valid → v.contains .calibrating → v.contains .stale ∨ v.contains .faultComm
  | .flip => m.has .stale → m.has .faultComm → m.has .valid ∨ m.has .calibrating

theorem runValidity_concat (pre : List ValidityStep) (u : ValidityStep) :
    runValidity (pre ++ [u]) = u.exec (runValidity pre) := by
  unfold runValidity
  rw [List.foldl_append]
  rfl

-- A calibrating mask reads invalid when `VALID` is down or one of the other two flags is up.
theorem calibrating_invalid_iff_flags (m : ValidityMask) :
    (m.has .calibrating = true → m.isValid = false) ↔
      (m.has .valid = true → m.has .calibrating = true →
        m.has .stale = true ∨ m.has .faultComm = true) := by
  unfold ValidityMask.isValid
  cases m.has .calibrating <;> cases m.has .valid <;> cases m.has .stale <;> simp

theorem stepSafe_iff (m : ValidityMask) (u : ValidityStep) :
    ((u.exec m).has .calibrating = true → (u.exec m).isValid = false) ↔ StepSafe m u := by
  rw [calibrating_invalid_iff_flags, has_exec (by decide), has_exec (by decide),
    has_exec (by decide), has_exec (by decide)]
  unfold StepSafe
  cases u.effect with
  | raise v => simp only [FlagEffect.onFlag, Bool.or_eq_true, or_assoc]
  | lower v =>
    simp only [FlagEffect.onFlag, Bool.and_eq_true, Bool.not_eq_true', Bool.not_eq_true]
  | keep v => simp only [FlagEffect.onFlag, Bool.and_eq_true]
  | replace v => simp only [FlagEffect.onFlag]
  | flip =>
    simp only [FlagEffect.onFlag, Bool.not_eq_true']
    cases m.has .valid <;> cases m.has .calibrating <;> simp [imp_iff_not_or]

/-- **When a calibrating sensor is never reported valid.**  In every state of a run in which
`CALIBRATING` is up the mask reads invalid, exactly when every step of the run is safe. -/
theorem calibrating_invalid_iff (steps : List ValidityStep) :
    (∀ pre, pre <+: steps → (runValidity pre).has .calibrating = true →
      (runValidity pre).isValid = false) ↔
    ∀ pre u post, steps = pre ++ u :: post → StepSafe (runValidity pre) u := by
  have hstart : (runValidity []).has .calibrating = true → (runValidity []).isValid = false := by
    decide
  rw [forall_prefix_iff]
  simp only [runValidity_concat, stepSafe_iff]
  exact and_iff_right hstart

-- A fresh mask whose sensor starts calibrating still reads valid.
theorem calibrating_valid_set :
    ¬ ∀ (steps pre : List ValidityStep), pre <+: steps →
      (runValidity pre).has .calibrating = true → (runValidity pre).isValid = false := by
  intro h
  have hinvalid := h [.update (.set .calibrating)] _ (List.prefix_refl _) (by decide)
  have hvalid : (runValidity [.update (.set .calibrating)]).isValid = true := by decide
  rw [hvalid] at hinvalid
  exact Bool.false_ne_true hinvalid.symm

end Bms.Telemetry
