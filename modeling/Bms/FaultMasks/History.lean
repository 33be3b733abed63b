import Bms.FaultMasks.Refinement
import Bms.Reasoning.FlagHistory

/-!
# The history of a fault flag

Whether a named fault is present after a run of in-place updates is read off the run: the last
update that decides the flag gives its value, each later `^=` that contains it negates it, and no
other update touches it.
-/

open Bms.Reasoning Bms.Types

namespace Bms.FaultMasks

-- A run of in-place updates; mask arguments are passed by value.
def updateAll (m : FaultMask) (steps : List (Update FaultCode FaultMask)) : FaultMask :=
  steps.foldl (FaultMask.ops.runUpdate id) m

-- The value that an update decides for the flag `f`.
def decision (f : FaultCode) : Update FaultCode FaultMask → Option Bool
  | .set c => if f.bits ⊆ c.bits then some true else none
  | .clear c => if f.bits ⊆ c.bits then some false else none
  | .reset => some false
  | .assign .or rhs => if f.bits ⊆ operandBits rhs then some true else none
  | .assign .and rhs => if f.bits ⊆ operandBits rhs then none else some false
  | .assign .xor _ => none

def toggles (f : FaultCode) : Update FaultCode FaultMask → Bool
  | .assign .xor rhs => f.bits ⊆ operandBits rhs
  | _ => false

def flagReading (f : FaultCode) : FlagReading (Update FaultCode FaultMask) where
  decision := decision f
  toggles := toggles f

/-! ## One update -/

theorem exists_atBit_of_mem_flags {f : FaultCode} (hf : f ∈ FaultCode.flags) :
    ∃ i, FaultCode.atBit i = f := by
  rw [flags_eq_map] at hf
  have ⟨i, _, hi⟩ := List.mem_map.mp hf
  exact ⟨i, hi⟩

theorem has_runUpdate {f : FaultCode} (hf : f ∈ FaultCode.flags) (m : FaultMask)
    (u : Update FaultCode FaultMask) :
    (FaultMask.ops.runUpdate id m u).has f = (flagReading f).apply (m.has f) u := by
  have ⟨i, hi⟩ := exists_atBit_of_mem_flags hf
  subst hi
  have hbits := FaultCode.bits_atBit i
  rw [FaultMask.has_atBit, FaultMask.has_atBit, bits_runUpdate]
  unfold FlagReading.apply flagReading
  cases u with
  | set c =>
    by_cases hc : i ∈ c.bits
    · simp [decision, hbits, hc]
    · simp [decision, toggles, hbits, hc]
  | clear c =>
    by_cases hc : i ∈ c.bits
    · simp [decision, hbits, hc]
    · simp [decision, toggles, hbits, hc]
  | reset => simp [decision]
  | assign op rhs =>
    by_cases hc : i ∈ operandBits rhs
    · cases op <;> simp [decision, toggles, BinOp.denote, hbits, hc, Finset.mem_symmDiff]
    · cases op <;> simp [decision, toggles, BinOp.denote, hbits, hc, Finset.mem_symmDiff]

/-! ## Whole runs -/

theorem has_updateAll {f : FaultCode} (hf : f ∈ FaultCode.flags) (m : FaultMask)
    (steps : List (Update FaultCode FaultMask)) :
    (updateAll m steps).has f = (flagReading f).after (m.has f) steps :=
  (flagReading f).view_foldl (FaultMask.ops.runUpdate id) (fun m => m.has f)
    (has_runUpdate hf) m steps

/-- **No latched fault is lost and none appears by itself.**  A named flag is present after a run
exactly as the last decisive update says, negated once for every `^=` since that contains it, and
the updates that do not touch it can be left out. -/
theorem flag_history (f : FaultCode) (hf : f ∈ FaultCode.flags) (m : FaultMask)
    (steps : List (Update FaultCode FaultMask)) :
    (updateAll m steps).has f =
        not^[(flagReading f).togglesSince steps] ((flagReading f).lastDecision (m.has f) steps) ∧
      (updateAll m (steps.filter (flagReading f).touches)).has f = (updateAll m steps).has f := by
  rw [has_updateAll hf, has_updateAll hf]
  exact ⟨(flagReading f).after_eq (m.has f) steps, (flagReading f).after_filter (m.has f) steps⟩

-- A latched over-voltage survives the clearing of another fault, and one toggle lowers it.
theorem flag_history_ovp :
    FaultCode.ovp ∈ FaultCode.flags ∧
      (updateAll {} [.set .ovp, .clear .uvp, .assign .xor (.mask ⟨3#16⟩)]).has .ovp = not^[1] true := by
  have hf : FaultCode.ovp ∈ FaultCode.flags := by decide
  have h := flag_history .ovp hf {} [.set .ovp, .clear .uvp, .assign .xor (.mask ⟨3#16⟩)]
  refine ⟨hf, h.1.trans ?_⟩
  decide +kernel

end Bms.FaultMasks
