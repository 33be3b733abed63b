import Bms.Telemetry.Scripts

/-!
# The masks that named validity flags can make

As with fault masks, the four unnamed bits of a validity mask are all equal after any steps that name
flags, and zero unless a complement is assigned; all such masks are reached.
-/

open Bms.Reasoning Bms.Types

namespace Bms.Telemetry

-- The flag that a step is given.
def ValidityUpdate.flag : ValidityUpdate → MetricValidity
  | .set v | .clear v | .reset v | .orAssign v | .andAssign v => v

def ValidityStep.flag? : ValidityStep → Option MetricValidity
  | .update u => some u.flag
  | .assignOr v | .assignAnd v => some v
  | .assignCompl => none

def ValidityStep.Named (u : ValidityStep) : Prop := ∀ v ∈ u.flag?, v ∈ MetricValidity.named

/-! ## Unnamed bits -/

-- What a step with a named flag does to every unnamed bit.
def unnamedAction (u : ValidityStep) : BitAction :=
  match u.effect with
  | .raise _ | .lower _ => .keep
  | .keep _ | .replace _ => .lower
  | .flip => .toggle

theorem contains_unnamed : ∀ v ∈ MetricValidity.named, ∀ i : Fin 8, 4 ≤ i →
    v.contains (.atBit i) = false := by decide

theorem stepAction_unnamed {u : ValidityStep} (hu : u.Named) {i : Fin 8} (hi : 4 ≤ i) :
    stepAction u i = unnamedAction u := by
  have hflag (v : MetricValidity) (hv : u.flag? = some v) : v.contains (.atBit i) = false :=
    contains_unnamed v (hu v hv) i hi
  unfold stepAction unnamedAction
  cases u with
  | update w =>
    cases w with
    | set v | clear v | reset v | orAssign v | andAssign v =>
      simp [ValidityStep.effect, ValidityUpdate.effect, FlagEffect.onBit, hflag v rfl]
  | assignOr v | assignAnd v => simp [ValidityStep.effect, FlagEffect.onBit, hflag v rfl]
  | assignCompl => rfl

theorem validityBit_unnamed {steps : List ValidityStep} (hsteps : ∀ u ∈ steps, u.Named) {i : Fin 8}
    (hi : 4 ≤ i) (m : ValidityMask) :
    validityBit (stepAll m steps) i =
      steps.foldl (fun x u => (unnamedAction u).act x) (validityBit m i) := by
  have hbit := validitySystem.bit_foldl steps m i
  refine hbit.trans (List.foldl_ext _ _ _ ?_)
  intro x u hu
  exact congrArg (fun a => a.act x) (stepAction_unnamed (hsteps u hu) hi)

theorem validityBit_default_unnamed : ∀ i : Fin 8, 4 ≤ i → validityBit {} i = false := by decide

-- Without a complement nothing raises an unnamed bit.
theorem foldl_unnamedAction {steps : List ValidityStep} (h : ∀ u ∈ steps, u ≠ .assignCompl) :
    steps.foldl (fun x u => (unnamedAction u).act x) false = false := by
  induction steps with
  | nil => rfl
  | cons u steps ih =>
    have hfirst : (unnamedAction u).act false = false := by
      cases u with
      | update w => cases w <;> rfl
      | assignOr v | assignAnd v => rfl
      | assignCompl => exact absurd rfl (h _ List.mem_cons_self)
    rw [List.foldl_cons, hfirst]
    exact ih fun x hx => h x (List.mem_cons_of_mem u hx)

/-! ## Scripts -/

def raiseFlags (m : ValidityMask) : List ValidityStep :=
  .update (.clear .valid) :: (MetricValidity.named.filter m.has).map fun v => .update (.set v)

theorem stepAll_raiseFlags : ∀ x : BitVec 8, (∀ i : Fin 8, 4 ≤ i → x.getLsbD i = false) →
    stepAll {} (raiseFlags ⟨x⟩) = ⟨x⟩ := by decide +kernel

theorem named_raiseFlags (m : ValidityMask) :
    ∀ u ∈ raiseFlags m, u.Named ∧ u ≠ .assignCompl := by
  intro u hu
  rcases List.mem_cons.mp hu with h | h
  · rw [h]
    exact ⟨fun v hv => by cases hv; decide, nofun⟩
  · have ⟨v, hv, hset⟩ := List.mem_map.mp h
    rw [← hset]
    refine ⟨fun w hw => ?_, nofun⟩
    cases hw
    exact (List.mem_filter.mp hv).1

theorem stepAll_raised {m : ValidityMask} (h : ∀ i : Fin 8, 4 ≤ i → validityBit m i = false) :
    stepAll {} (raiseFlags m) = m := stepAll_raiseFlags m.mask h

theorem validityBit_compl (m : ValidityMask) (i : Fin 8) :
    validityBit m.compl i = !validityBit m i := (hom_validityBitOps i).unary .compl m

-- The complement of a mask without unnamed bits.
theorem stepAll_complRaised {m : ValidityMask} (h : ∀ i : Fin 8, 4 ≤ i → validityBit m i = true) :
    stepAll {} (raiseFlags m.compl ++ [.assignCompl]) = m := by
  have hlow : stepAll {} (raiseFlags m.compl) = m.compl := by
    apply stepAll_raised
    intro i hi
    rw [validityBit_compl, h i hi]
    rfl
  unfold stepAll at hlow ⊢
  rw [List.foldl_concat, hlow]
  apply eq_of_validityBit
  intro i
  show validityBit m.compl.compl i = validityBit m i
  rw [validityBit_compl, validityBit_compl, Bool.not_not]

theorem named_complRaised (m : ValidityMask) :
    ∀ u ∈ raiseFlags m ++ [.assignCompl], u.Named := by
  intro u hu
  rcases List.mem_append.mp hu with hu | hu
  · exact (named_raiseFlags m u hu).1
  · rw [List.mem_singleton.mp hu]
    exact fun v hv => by cases hv

/-- **Which masks named validity flags can make.**  Steps that name flags reach, from a new mask, exactly
the masks whose unnamed bits are all equal; steps without the complement reach exactly the masks
whose unnamed bits are all zero. -/
theorem validityReached_iff (m : ValidityMask) :
    ((∃ steps : List ValidityStep, (∀ u ∈ steps, u.Named) ∧ stepAll {} steps = m) ↔
      ∀ i j : Fin 8, 4 ≤ i → 4 ≤ j → validityBit m i = validityBit m j) ∧
    ((∃ steps : List ValidityStep, (∀ u ∈ steps, u.Named ∧ u ≠ .assignCompl) ∧
        stepAll {} steps = m) ↔
      ∀ i : Fin 8, 4 ≤ i → validityBit m i = false) := by
  apply And.intro
  · apply Iff.intro
    · intro h i j hi hj
      have ⟨steps, hsteps, hm⟩ := h
      rw [← hm, validityBit_unnamed hsteps hi, validityBit_unnamed hsteps hj,
        validityBit_default_unnamed i hi, validityBit_default_unnamed j hj]
    · intro h
      cases hlast : validityBit m 7 with
      | false =>
        refine ⟨raiseFlags m, fun u hu => (named_raiseFlags m u hu).1, stepAll_raised fun i hi => ?_⟩
        rw [h i 7 hi (by decide), hlast]
      | true =>
        refine ⟨_, named_complRaised m.compl, stepAll_complRaised fun i hi => ?_⟩
        rw [h i 7 hi (by decide), hlast]
  · apply Iff.intro
    · intro h i hi
      have ⟨steps, hsteps, hm⟩ := h
      rw [← hm, validityBit_unnamed (fun u hu => (hsteps u hu).1) hi,
        validityBit_default_unnamed i hi]
      exact foldl_unnamedAction fun u hu => (hsteps u hu).2
    · intro h
      exact ⟨raiseFlags m, named_raiseFlags m, stepAll_raised h⟩

end Bms.Telemetry
