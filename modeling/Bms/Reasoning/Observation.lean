import Mathlib

/-!
# What queries can tell about a state

A machine takes steps and answers queries.  States that no run of steps followed by a query tells
apart are indistinguishable.  A view into another machine that keeps step with the first one loses
nothing but what cannot be observed as soon as the other machine has no two indistinguishable states.
-/

namespace Bms.Reasoning

structure Machine (σ ε θ ρ : Type*) where
  step : σ → ε → σ
  ask : σ → θ → ρ

namespace Machine

variable {σ τ υ ε θ ρ : Type*}

def run (M : Machine σ ε θ ρ) (steps : List ε) (s : σ) : σ := steps.foldl M.step s

/-- No run of steps followed by a query tells the states apart. -/
def Indistinguishable (M : Machine σ ε θ ρ) (s s' : σ) : Prop :=
  ∀ steps q, M.ask (M.run steps s) q = M.ask (M.run steps s') q

-- The runs in `tests`, each followed by any query, tell all states apart.
def SeparatedBy (M : Machine σ ε θ ρ) (tests : List (List ε)) : Prop :=
  ∀ s s', (∀ steps ∈ tests, ∀ q, M.ask (M.run steps s) q = M.ask (M.run steps s') q) → s = s'

/-- The machine `N`, seen through `view`, steps and answers as `M` does. -/
structure View (M : Machine σ ε θ ρ) (N : Machine τ ε θ ρ) (view : σ → τ) : Prop where
  step : ∀ s e, view (M.step s e) = N.step (view s) e
  ask : ∀ s q, M.ask s q = N.ask (view s) q

variable {M : Machine σ ε θ ρ} {N : Machine τ ε θ ρ} {P : Machine υ ε θ ρ}
  {view : σ → τ} {view' : σ → υ}

theorem View.run (h : View M N view) (steps : List ε) (s : σ) :
    view (M.run steps s) = N.run steps (view s) := by
  unfold Machine.run
  induction steps generalizing s with
  | nil => rfl
  | cons e steps ih =>
    rw [List.foldl_cons, List.foldl_cons, ih, h.step]

theorem View.ask_run (h : View M N view) (steps : List ε) (s : σ) (q : θ) :
    M.ask (M.run steps s) q = N.ask (N.run steps (view s)) q := by
  rw [h.ask, h.run]

theorem View.indistinguishable_of_eq (h : View M N view) {s s' : σ} (heq : view s = view s') :
    M.Indistinguishable s s' := by
  intro steps q
  rw [h.ask_run, h.ask_run, heq]

/-- Where the tests separate the states of the viewed machine, the view shows all that can be
observed, and the tests suffice to observe it. -/
theorem View.eq_iff (h : View M N view) {tests : List (List ε)} (hsep : N.SeparatedBy tests)
    (s s' : σ) :
    (M.Indistinguishable s s' ↔ view s = view s') ∧
      ((∀ steps ∈ tests, ∀ q, M.ask (M.run steps s) q = M.ask (M.run steps s') q) ↔
        view s = view s') := by
  have htests (ht : ∀ steps ∈ tests, ∀ q, M.ask (M.run steps s) q = M.ask (M.run steps s') q) :
      view s = view s' := by
    apply hsep
    intro steps hsteps q
    rw [← h.ask_run, ← h.ask_run]
    exact ht steps hsteps q
  apply And.intro
  · exact ⟨fun hobs => htests fun steps _ q => hobs steps q, h.indistinguishable_of_eq⟩
  · exact ⟨htests, fun heq steps _ q => h.indistinguishable_of_eq heq steps q⟩

-- Every view of the same machine keeps apart what a separated one keeps apart.
theorem View.coarsest (h : View M N view) {tests : List (List ε)} (hsep : N.SeparatedBy tests)
    (h' : View M P view') {s s' : σ} (heq : view' s = view' s') : view s = view s' :=
  (h.eq_iff hsep s s').1.mp (h'.indistinguishable_of_eq heq)

end Machine

end Bms.Reasoning
