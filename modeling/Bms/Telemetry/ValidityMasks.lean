import Bms.Types.TelemetryTypes

/-!
# Validity masks, flag by flag

The operations of `ValidityMask` are the bitwise operations on its eight bits.  What a step does to a
named flag depends on that flag alone: on whether the mask has it and whether the argument contains
it.
-/

open Bms.Reasoning

namespace Bms.Types

namespace MetricValidity

-- The value with the single bit `i`.
def atBit (i : Fin 8) : MetricValidity := ⟨1#8 <<< i.val⟩

def named : List MetricValidity := [valid, stale, faultComm, calibrating]

-- The argument `v` contains the flag `f`.
def contains (v f : MetricValidity) : Bool := (ValidityMask.ofFlag v).has f

theorem exists_atBit_of_mem_named : ∀ f ∈ named, ∃ i, atBit i = f := by decide

end MetricValidity

namespace ValidityMask

theorem has_atBit (m : ValidityMask) (i : Fin 8) :
    m.has (MetricValidity.atBit i) = m.mask.getLsbD i := promote_test_atBit (by decide) m.mask i

theorem contains_atBit (v : MetricValidity) (i : Fin 8) :
    v.contains (MetricValidity.atBit i) = v.value.getLsbD i := has_atBit (ofFlag v) i

end ValidityMask

end Bms.Types

namespace Bms.Telemetry

open Bms.Types

/-! ## Steps -/

/-- An update of a mask in place. -/
inductive ValidityUpdate
  | set (v : MetricValidity)
  | clear (v : MetricValidity)
  | reset (v : MetricValidity)
  | orAssign (v : MetricValidity)
  | andAssign (v : MetricValidity)
deriving DecidableEq, Repr

def ValidityUpdate.exec (m : ValidityMask) : ValidityUpdate → ValidityMask
  | .set v => m.set v
  | .clear v => m.clear v
  | .reset v => m.reset v
  | .orAssign v => m.orAssign v
  | .andAssign v => m.andAssign v

/-- An update in place, or an assignment of the result of a value operator. -/
inductive ValidityStep
  | update (u : ValidityUpdate)
  | assignOr (v : MetricValidity)
  | assignAnd (v : MetricValidity)
  | assignCompl
deriving DecidableEq, Repr

def ValidityStep.exec (m : ValidityMask) : ValidityStep → ValidityMask
  | .update u => u.exec m
  | .assignOr v => m.orFlag v
  | .assignAnd v => m.andFlag v
  | .assignCompl => m.compl

/-- What a step does to the flags of a mask. -/
inductive FlagEffect
  | raise (v : MetricValidity)
  | lower (v : MetricValidity)
  | keep (v : MetricValidity)
  | replace (v : MetricValidity)
  | flip
deriving DecidableEq, Repr

def ValidityUpdate.effect : ValidityUpdate → FlagEffect
  | .set v => .raise v
  | .clear v => .lower v
  | .reset v => .replace v
  | .orAssign v => .raise v
  | .andAssign v => .keep v

def ValidityStep.effect : ValidityStep → FlagEffect
  | .update u => u.effect
  | .assignOr v => .raise v
  | .assignAnd v => .keep v
  | .assignCompl => .flip

-- The word of the mask after the effect.
def FlagEffect.onWord (x : BitVec 8) : FlagEffect → BitVec 8
  | .raise v => x ||| v.value
  | .lower v => x &&& ~~~v.value
  | .keep v => x &&& v.value
  | .replace v => v.value
  | .flip => ~~~x

-- The flag `f` after the effect, where the mask has it or not.
def FlagEffect.onFlag (f : MetricValidity) (b : Bool) : FlagEffect → Bool
  | .raise v => b || v.contains f
  | .lower v => b && !v.contains f
  | .keep v => b && v.contains f
  | .replace v => v.contains f
  | .flip => !b

theorem mask_exec_update (m : ValidityMask) (u : ValidityUpdate) :
    (u.exec m).mask = u.effect.onWord m.mask := by
  cases u with
  | set v => exact promoted_or (by decide) m.mask v.value
  | clear v => exact promoted_and_not (by decide) m.mask v.value
  | reset v => rfl
  | orAssign v => exact promoted_or (by decide) m.mask v.value
  | andAssign v => exact promoted_and (by decide) m.mask v.value

theorem mask_exec (m : ValidityMask) (u : ValidityStep) :
    (u.exec m).mask = u.effect.onWord m.mask := by
  cases u with
  | update u => exact mask_exec_update m u
  | assignOr v => exact promoted_or (by decide) m.mask v.value
  | assignAnd v => exact promoted_and (by decide) m.mask v.value
  | assignCompl => exact castTo_not_promote (by decide) m.mask

theorem getLsbD_onWord (e : FlagEffect) (x : BitVec 8) (i : Fin 8) :
    (e.onWord x).getLsbD i = e.onFlag (MetricValidity.atBit i) (x.getLsbD i) := by
  cases e <;> simp [FlagEffect.onWord, FlagEffect.onFlag, ValidityMask.contains_atBit]

/-- A step changes a named flag as its effect says. -/
theorem has_exec {f : MetricValidity} (hf : f ∈ MetricValidity.named) (m : ValidityMask)
    (u : ValidityStep) : (u.exec m).has f = u.effect.onFlag f (m.has f) := by
  have ⟨i, hi⟩ := MetricValidity.exists_atBit_of_mem_named f hf
  subst hi
  rw [ValidityMask.has_atBit, ValidityMask.has_atBit, mask_exec, getLsbD_onWord]

theorem isValid_iff (m : ValidityMask) :
    m.isValid = true ↔ m.has .valid = true ∧ m.has .stale = false ∧ m.has .faultComm = false := by
  unfold ValidityMask.isValid
  simp only [Bool.and_eq_true, Bool.not_eq_true', and_assoc]

end Bms.Telemetry
