import Mathlib

/-!
# The history of one flag

A step of a run may decide a flag, negate it, or leave it alone.  The value of the flag after a run
is the last decided one, negated once for each later negation; the other steps do not matter.
-/

namespace Bms.Reasoning

variable {ε M : Type*}

/-- What holds of every state of a run holds of its start and after each of its steps. -/
theorem forall_prefix_iff {P : List ε → Prop} (steps : List ε) :
    (∀ pre, pre <+: steps → P pre) ↔
      P [] ∧ ∀ pre e post, steps = pre ++ e :: post → P (pre ++ [e]) := by
  apply Iff.intro
  · intro h
    refine ⟨h [] List.nil_prefix, fun pre e post hsteps => h (pre ++ [e]) ⟨post, ?_⟩⟩
    rw [hsteps, List.append_assoc]
    rfl
  · intro h pre hpre
    rcases List.eq_nil_or_concat pre with hnil | ⟨init, e, hconcat⟩
    · rw [hnil]
      exact h.1
    · have ⟨post, hpost⟩ := hpre
      rw [hconcat, List.concat_eq_append] at hpost ⊢
      apply h.2 init e post
      rw [← hpost, List.append_assoc]
      rfl

/-- What the steps of a run do to one flag. -/
structure FlagReading (ε : Type*) where
  decision : ε → Option Bool
  toggles : ε → Bool

namespace FlagReading

def apply (r : FlagReading ε) (b : Bool) (e : ε) : Bool :=
  match r.decision e with
  | some v => v
  | none => if r.toggles e then !b else b

def touches (r : FlagReading ε) (e : ε) : Bool := (r.decision e).isSome || r.toggles e

/-- The value given by the last decisive step; `b` where there is none. -/
def lastDecision (r : FlagReading ε) (b : Bool) (steps : List ε) : Bool :=
  (steps.filterMap r.decision).getLast?.getD b

-- The number of negations after the last decisive step.
def togglesSince (r : FlagReading ε) (steps : List ε) : ℕ :=
  (steps.rtakeWhile fun e => (r.decision e).isNone).countP r.toggles

def after (r : FlagReading ε) (b : Bool) (steps : List ε) : Bool := steps.foldl r.apply b

theorem after_concat (r : FlagReading ε) (b : Bool) (steps : List ε) (e : ε) :
    r.after b (steps ++ [e]) = r.apply (r.after b steps) e := by
  unfold after
  rw [List.foldl_append]
  rfl

theorem apply_of_not_touches (r : FlagReading ε) (b : Bool) (e : ε) (h : r.touches e = false) :
    r.apply b e = b := by
  unfold touches at h
  rw [Bool.or_eq_false_iff, Option.isSome_eq_false_iff, Option.isNone_iff_eq_none] at h
  unfold apply
  rw [h.1, h.2]
  rfl

/-! ## The last step of a run -/

theorem lastDecision_concat_some (r : FlagReading ε) (b : Bool) (steps : List ε) {e : ε} {v : Bool}
    (he : r.decision e = some v) : r.lastDecision b (steps ++ [e]) = v := by
  unfold lastDecision
  rw [List.filterMap_append, List.filterMap_cons_some he, List.filterMap_nil, List.getLast?_concat]
  rfl

theorem lastDecision_concat_none (r : FlagReading ε) (b : Bool) (steps : List ε) {e : ε}
    (he : r.decision e = none) : r.lastDecision b (steps ++ [e]) = r.lastDecision b steps := by
  unfold lastDecision
  rw [List.filterMap_append, List.filterMap_cons_none he, List.filterMap_nil, List.append_nil]

theorem togglesSince_concat_some (r : FlagReading ε) (steps : List ε) {e : ε} {v : Bool}
    (he : r.decision e = some v) : r.togglesSince (steps ++ [e]) = 0 := by
  unfold togglesSince
  rw [List.rtakeWhile_concat_neg _ _ _ (by rw [he]; exact Bool.false_ne_true)]
  rfl

theorem togglesSince_concat_none (r : FlagReading ε) (steps : List ε) {e : ε}
    (he : r.decision e = none) :
    r.togglesSince (steps ++ [e]) = r.togglesSince steps + if r.toggles e then 1 else 0 := by
  unfold togglesSince
  rw [List.rtakeWhile_concat_pos _ _ _ (by rw [he]; rfl), List.countP_append, List.countP_singleton]

/-! ## Whole runs -/

-- The last decision and the negations since give the flag after a run.
theorem after_eq (r : FlagReading ε) (b : Bool) (steps : List ε) :
    r.after b steps = not^[r.togglesSince steps] (r.lastDecision b steps) := by
  induction steps using List.reverseRecOn with
  | nil => rfl
  | append_singleton steps e ih =>
    rw [after_concat]
    unfold apply
    cases he : r.decision e with
    | some v =>
      -- A decisive step starts the history afresh.
      rw [r.lastDecision_concat_some b steps he, r.togglesSince_concat_some steps he]
      rfl
    | none =>
      rw [r.lastDecision_concat_none b steps he, r.togglesSince_concat_none steps he, ih]
      by_cases ht : r.toggles e = true
      · rw [if_pos ht, if_pos ht, Function.iterate_succ_apply']
      · rw [if_neg ht, if_neg ht, Nat.add_zero]

theorem after_filter (r : FlagReading ε) (b : Bool) (steps : List ε) :
    r.after b (steps.filter r.touches) = r.after b steps := by
  induction steps generalizing b with
  | nil => rfl
  | cons e steps ih =>
    by_cases he : r.touches e = true
    · rw [List.filter_cons_of_pos he]
      exact ih (r.apply b e)
    · have hkeep : r.apply b e = b := r.apply_of_not_touches b e (Bool.eq_false_of_not_eq_true he)
      rw [List.filter_cons_of_neg he, ih]
      show r.after b steps = r.after (r.apply b e) steps
      rw [hkeep]

-- Without negations the last decision alone gives the flag.
theorem after_eq_lastDecision (r : FlagReading ε) (h : ∀ e, r.toggles e = false) (b : Bool)
    (steps : List ε) : r.after b steps = r.lastDecision b steps := by
  have hnone : r.togglesSince steps = 0 := List.countP_eq_zero.mpr fun e _ => by simp [h e]
  rw [r.after_eq, hnone]
  rfl

-- A value that every step of a run keeps.
theorem after_of_kept (r : FlagReading ε) {b : Bool} {steps : List ε}
    (h : ∀ e ∈ steps, r.apply b e = b) : r.after b steps = b := by
  induction steps with
  | nil => rfl
  | cons e steps ih =>
    show r.after (r.apply b e) steps = b
    rw [h e List.mem_cons_self]
    exact ih fun e' he' => h e' (List.mem_cons_of_mem e he')

-- A view of a state that every step changes as the reading says.
theorem view_foldl (r : FlagReading ε) (step : M → ε → M) (view : M → Bool)
    (hstep : ∀ m e, view (step m e) = r.apply (view m) e) (m : M) (steps : List ε) :
    view (steps.foldl step m) = r.after (view m) steps := by
  induction steps generalizing m with
  | nil => rfl
  | cons e steps ih =>
    show view (steps.foldl step (step m e)) = r.after (r.apply (view m) e) steps
    rw [ih, hstep]

end FlagReading

end Bms.Reasoning
