import Bms.Reasoning.BitSchedules
import Bms.Telemetry.Expressions

/-!
# Scripts of validity mask steps

The steps on a validity mask act bit by bit as well, the assignment of a complement included.  So a
script of steps is known by its results on two masks, and it is decided bit by bit whether the
schedule of several telemetry producers matters.
-/

open Bms.Reasoning Bms.Types

namespace Bms.Telemetry

-- What an effect does to the flag at the `i`-th bit.
def FlagEffect.onBit (i : Fin 8) : FlagEffect → BitAction
  | .raise v => if v.contains (.atBit i) then .raise else .keep
  | .lower v => if v.contains (.atBit i) then .lower else .keep
  | .keep v => if v.contains (.atBit i) then .keep else .lower
  | .replace v => if v.contains (.atBit i) then .raise else .lower
  | .flip => .toggle

def stepAction (u : ValidityStep) (i : Fin 8) : BitAction := u.effect.onBit i

theorem act_onBit (e : FlagEffect) (i : Fin 8) (x : Bool) :
    (e.onBit i).act x = e.onFlag (.atBit i) x := by
  cases e with
  | raise v | lower v | keep v | replace v =>
    by_cases h : v.contains (.atBit i)
    · simp [FlagEffect.onBit, FlagEffect.onFlag, BitAction.act, h]
    · simp [FlagEffect.onBit, FlagEffect.onFlag, BitAction.act, h]
  | flip => rfl

/-- The steps on a validity mask, bit by bit. -/
def validitySystem : BitSystem ValidityStep (Fin 8) ValidityMask where
  exec := ValidityStep.exec
  bit := validityBit
  ofBits f := ⟨BitVec.ofFnLE f⟩
  action := stepAction
  bit_ofBits f i := by simp [validityBit]
  ext _ _ := eq_of_validityBit
  bit_exec m u i := by
    unfold validityBit
    rw [mask_exec, getLsbD_onWord]
    exact (act_onBit u.effect i _).symm

theorem validity_low_eq : validitySystem.low = .ofRaw 0#8 := by decide

theorem validity_high_eq : validitySystem.high = .ofRaw 0xFF#8 := by decide

-- The mask after a script of steps on `m`.
def stepAll (m : ValidityMask) (steps : List ValidityStep) : ValidityMask :=
  steps.foldl ValidityStep.exec m

/-- **Two masks tell scripts of validity steps apart.**  Scripts that agree on the mask without flags
and on the mask with all of them agree on every mask.  A script can be retried without effect, from
any mask, exactly when it can from the mask without flags. -/
theorem stepAll_extremes (steps steps' : List ValidityStep) :
    ((∀ m, stepAll m steps = stepAll m steps') ↔
      stepAll (.ofRaw 0#8) steps = stepAll (.ofRaw 0#8) steps' ∧
        stepAll (.ofRaw 0xFF#8) steps = stepAll (.ofRaw 0xFF#8) steps') ∧
    ((∀ m, stepAll (stepAll m steps) steps = stepAll m steps) ↔
      stepAll (stepAll (.ofRaw 0#8) steps) steps = stepAll (.ofRaw 0#8) steps) := by
  rw [← validity_low_eq, ← validity_high_eq]
  exact ⟨validitySystem.run_eq_iff_extremes steps steps', validitySystem.run_idem_iff steps⟩

def flagWord (steps : List ValidityStep) (i : Fin 8) : List BitAction :=
  (steps.map fun u => stepAction u i).filter (· ≠ .keep)

/-- **When the schedule of telemetry producers does not matter.** -/
theorem validitySteps_schedule_iff (n : ℕ) (tasks : Fin n → List ValidityStep) :
    (∀ s s', Interleaves tasks s → Interleaves tasks s' → ∀ m,
      runSchedule ValidityStep.exec m s = runSchedule ValidityStep.exec m s') ↔
      ∀ i, Settled fun k => flagWord (tasks k) i :=
  validitySystem.schedule_independent_iff tasks

end Bms.Telemetry
