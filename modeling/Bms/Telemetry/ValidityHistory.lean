import Bms.Reasoning.FlagHistory
import Bms.Telemetry.ValidityMasks

/-!
# The history of a validity mask

`is_valid` reads three flags, and the updates in place decide each of them on its own: after a run
the last update that decided a flag gives its value.  A stale or bus-faulted reading therefore stays
invalid until that flag itself is lowered, whatever is done to the others.
-/

open Bms.Reasoning Bms.Types

namespace Bms.Telemetry

-- The mask after a run of updates on a default-constructed one.
def runUpdates (steps : List ValidityUpdate) : ValidityMask := steps.foldl ValidityUpdate.exec {}

namespace ValidityUpdate

-- The value that an update decides for the flag `f`; `reset` decides every flag.
def decision (f : MetricValidity) : ValidityUpdate → Option Bool
  | .set v => if v.contains f then some true else none
  | .clear v => if v.contains f then some false else none
  | .reset v => some (v.contains f)
  | .orAssign v => if v.contains f then some true else none
  | .andAssign v => if v.contains f then none else some false

def Lowers (f : MetricValidity) (u : ValidityUpdate) : Prop := u.decision f = some false

instance (f : MetricValidity) (u : ValidityUpdate) : Decidable (u.Lowers f) :=
  inferInstanceAs (Decidable (_ = _))

end ValidityUpdate

def validityReading (f : MetricValidity) : FlagReading ValidityUpdate where
  decision := ValidityUpdate.decision f
  toggles _ := false

/-! ## One update -/

theorem apply_validityReading (f : MetricValidity) (b : Bool) (u : ValidityUpdate) :
    (validityReading f).apply b u = u.effect.onFlag f b := by
  unfold FlagReading.apply validityReading
  cases u with
  | set v | orAssign v =>
    by_cases h : v.contains f
    · simp [ValidityUpdate.decision, ValidityUpdate.effect, FlagEffect.onFlag, h]
    · simp [ValidityUpdate.decision, ValidityUpdate.effect, FlagEffect.onFlag, h]
  | clear v | andAssign v =>
    by_cases h : v.contains f
    · simp [ValidityUpdate.decision, ValidityUpdate.effect, FlagEffect.onFlag, h]
    · simp [ValidityUpdate.decision, ValidityUpdate.effect, FlagEffect.onFlag, h]
  | reset v => rfl

theorem apply_true_of_not_lowers {f : MetricValidity} {u : ValidityUpdate} (h : ¬ u.Lowers f) :
    (validityReading f).apply true u = true := by
  unfold FlagReading.apply
  cases hd : (validityReading f).decision u with
  | none => rfl
  | some v => exact Bool.eq_true_of_not_eq_false fun hv => h (hd.trans (congrArg some hv))

/-! ## Whole runs -/

theorem has_foldl {f : MetricValidity} (hf : f ∈ MetricValidity.named) (m : ValidityMask)
    (steps : List ValidityUpdate) :
    (steps.foldl ValidityUpdate.exec m).has f = (validityReading f).after (m.has f) steps := by
  apply (validityReading f).view_foldl ValidityUpdate.exec (fun m => m.has f)
  intro m u
  rw [apply_validityReading]
  exact has_exec hf m (.update u)

theorem has_runUpdates {f : MetricValidity} (hf : f ∈ MetricValidity.named)
    (steps : List ValidityUpdate) :
    (runUpdates steps).has f =
      (validityReading f).lastDecision (ValidityMask.has {} f) steps := by
  unfold runUpdates
  rw [has_foldl hf, FlagReading.after_eq_lastDecision _ fun _ => rfl]

-- A flag that is up stays up while no update lowers it.
theorem has_append {f : MetricValidity} (hf : f ∈ MetricValidity.named)
    {pre post : List ValidityUpdate} (hup : (runUpdates pre).has f = true)
    (hpost : ∀ u ∈ post, ¬ u.Lowers f) : (runUpdates (pre ++ post)).has f = true := by
  unfold runUpdates at hup ⊢
  rw [List.foldl_append, has_foldl hf, hup]
  exact (validityReading f).after_of_kept fun u hu => apply_true_of_not_lowers (hpost u hu)

/-- **Stale or bus-faulted telemetry does not become valid by accident.**  After a run of updates the
mask reads valid exactly when the last update that decided `VALID` raised it, or none did, and the
last ones that decided `STALE` and `FAULT_COMM` lowered them, or none did.  So while one of these two
flags is up and no update lowers it, the mask reads invalid. -/
theorem isValid_runUpdates_iff (steps : List ValidityUpdate) :
    ((runUpdates steps).isValid = true ↔
      (validityReading .valid).lastDecision true steps = true ∧
      (validityReading .stale).lastDecision false steps = false ∧
      (validityReading .faultComm).lastDecision false steps = false) ∧
    ∀ f, f = .stale ∨ f = .faultComm → ∀ pre post, steps = pre ++ post →
      (runUpdates pre).has f = true → (∀ u ∈ post, ¬ u.Lowers f) →
        (runUpdates steps).isValid = false := by
  apply And.intro
  · rw [isValid_iff, has_runUpdates (by decide), has_runUpdates (by decide),
      has_runUpdates (by decide)]
    rfl
  · intro f hf pre post hsteps hup hpost
    have hstays : ∀ g ∈ MetricValidity.named, g = f → (runUpdates steps).has g = true := by
      intro g hg hgf
      subst hgf
      rw [hsteps]
      exact has_append hg hup hpost
    unfold ValidityMask.isValid
    rcases hf with hstale | hcomm
    · rw [hstays .stale (by decide) hstale.symm]
      simp
    · rw [hstays .faultComm (by decide) hcomm.symm]
      simp

-- Re-raising `VALID` does not bring a stale reading back.
theorem isValid_runUpdates_stale :
    (runUpdates [.set .stale, .set .valid, .orAssign .valid]).isValid = false :=
  (isValid_runUpdates_iff _).2 .stale (Or.inl rfl) [.set .stale] _ rfl (by decide) (by decide)

end Bms.Telemetry
