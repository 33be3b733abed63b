import Bms.FaultMasks.Expressions
import Bms.FaultMasks.History
import Bms.Reasoning.BitSchedules

/-!
# Scripts of fault mask updates

Every in-place update acts on each fault bit by keeping, raising, lowering or toggling it.  A script
of updates is therefore one `&` and one `^`, which its results on two masks give away; and for tasks
that share a mask it is decided bit by bit whether their schedule matters.
-/

open Bms.Reasoning Bms.Types

namespace Bms.FaultMasks

-- What an update does to the `i`-th bit; mask arguments are passed by value.
def updateAction (u : Update FaultCode FaultMask) (i : Fin 16) : BitAction :=
  match u with
  | .set c => if i ∈ c.bits then .raise else .keep
  | .clear c => if i ∈ c.bits then .lower else .keep
  | .reset => .lower
  | .assign .or rhs => if i ∈ operandBits rhs then .raise else .keep
  | .assign .and rhs => if i ∈ operandBits rhs then .keep else .lower
  | .assign .xor rhs => if i ∈ operandBits rhs then .toggle else .keep

theorem maskBit_runUpdate (m : FaultMask) (u : Update FaultCode FaultMask) (i : Fin 16) :
    maskBit (FaultMask.ops.runUpdate id m u) i = (updateAction u i).act (maskBit m i) := by
  rw [maskBit_eq_decide, maskBit_eq_decide, bits_runUpdate]
  cases u with
  | set c | clear c =>
    by_cases hi : i ∈ c.bits
    · simp [updateAction, BitAction.act, hi]
    · simp [updateAction, BitAction.act, hi]
  | reset => simp [updateAction, BitAction.act]
  | assign op rhs =>
    by_cases hi : i ∈ operandBits rhs
    · cases op <;> simp [updateAction, BitAction.act, BinOp.denote, Finset.mem_symmDiff, hi]
    · cases op <;> simp [updateAction, BitAction.act, BinOp.denote, Finset.mem_symmDiff, hi]

theorem maskBit_ofFnLE (f : Fin 16 → Bool) (i : Fin 16) : maskBit ⟨BitVec.ofFnLE f⟩ i = f i := by
  simp [maskBit]

/-- The updates in place of a fault mask, bit by bit. -/
def updateSystem : BitSystem (Update FaultCode FaultMask) (Fin 16) FaultMask where
  exec := FaultMask.ops.runUpdate id
  bit := maskBit
  ofBits f := ⟨BitVec.ofFnLE f⟩
  action := updateAction
  bit_ofBits := maskBit_ofFnLE
  ext _ _ := eq_of_maskBit
  bit_exec := maskBit_runUpdate

/-! ## The class's own operators on bits -/

theorem maskBit_andMask (m n : FaultMask) (i : Fin 16) :
    maskBit (m.andMask n) i = (maskBit m i && maskBit n i) := (hom_maskBit i).binMask .and m n

theorem maskBit_xorMask (m n : FaultMask) (i : Fin 16) :
    maskBit (m.xorMask n) i = (maskBit m i ^^ maskBit n i) :=
  ((hom_maskBit i).binMask .xor m n).trans (Bool.symmDiff_eq_xor _ _)

theorem low_eq : updateSystem.low = {} := by decide

theorem high_eq : updateSystem.high = FaultMask.compl {} := by decide

/-! ## One script -/

/-- **A script of updates is one `&` and one `^`.**  The two masks are read off the results on the
empty mask and on its complement, so scripts that agree on these two masks agree on every mask. -/
theorem updateAll_normalForm (steps steps' : List (Update FaultCode FaultMask)) :
    (∀ m, updateAll m steps =
      (m.andMask ((updateAll {} steps).xorMask (updateAll (FaultMask.compl {}) steps))).xorMask
        (updateAll {} steps)) ∧
    ((∀ m, updateAll m steps = updateAll m steps') ↔
      updateAll {} steps = updateAll {} steps' ∧
        updateAll (FaultMask.compl {}) steps = updateAll (FaultMask.compl {}) steps') := by
  rw [← high_eq, ← low_eq]
  refine ⟨fun m => ?_, updateSystem.run_eq_iff_extremes steps steps'⟩
  apply eq_of_maskBit
  intro i
  rw [maskBit_xorMask, maskBit_andMask, maskBit_xorMask]
  exact updateSystem.bit_run_eq_xor steps m i

/-- **When a script of updates can be retried.**  Running it again changes nothing, from any mask,
exactly when it changes nothing from the empty mask. -/
theorem updateAll_retry_iff (steps : List (Update FaultCode FaultMask)) :
    (∀ m, updateAll (updateAll m steps) steps = updateAll m steps) ↔
      updateAll (updateAll {} steps) steps = updateAll {} steps := by
  rw [← low_eq]
  exact updateSystem.run_idem_iff steps

/-! ## Several tasks -/

-- What a task does to the `i`-th bit, without the updates that keep it.
def bitWord (steps : List (Update FaultCode FaultMask)) (i : Fin 16) : List BitAction :=
  (steps.map fun u => updateAction u i).filter (· ≠ .keep)

/-- **When the schedule of fault updates does not matter.**  All interleavings of the tasks end in the
same mask, from any mask, exactly when on each bit one task alone acts, or all tasks only toggle it,
or all tasks that act on it end by raising it, or all end by lowering it. -/
theorem updates_schedule_iff (n : ℕ) (tasks : Fin n → List (Update FaultCode FaultMask)) :
    (∀ s s', Interleaves tasks s → Interleaves tasks s' → ∀ m,
      runSchedule (FaultMask.ops.runUpdate id) m s =
        runSchedule (FaultMask.ops.runUpdate id) m s') ↔
      ∀ i, Settled fun k => bitWord (tasks k) i :=
  updateSystem.schedule_independent_iff tasks

-- Updates that do not commute, in tasks that both end by raising the fault.
example (i : Fin 16) : Settled fun k : Fin 2 =>
    bitWord (![[.reset, .set .ovp], [.assign .xor (.code .ovp), .set .ovp]] k) i := by
  revert i
  decide +kernel

end Bms.FaultMasks
