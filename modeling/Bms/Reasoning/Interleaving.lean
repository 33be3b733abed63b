import Mathlib

/-!
# Interleavings of sequential tasks

A schedule is a list of steps, each labelled with its task.  It interleaves the tasks when the steps
of each task appear in the task's own order.  Where steps of different tasks commute, every
interleaving ends in the same state; a part of the state that only one task touches ends as if that
task had run alone.
-/

namespace Bms.Reasoning

variable {ι α σ β : Type*} [DecidableEq ι]

/-- The steps of task `i` in a schedule. -/
def ownSteps (s : List (ι × α)) (i : ι) : List α := (s.filter fun e => e.1 = i).map Prod.snd

def Interleaves (tasks : ι → List α) (s : List (ι × α)) : Prop := ∀ i, ownSteps s i = tasks i

instance [Fintype ι] [DecidableEq α] (tasks : ι → List α) (s : List (ι × α)) :
    Decidable (Interleaves tasks s) :=
  inferInstanceAs (Decidable (∀ i, ownSteps s i = tasks i))

omit [DecidableEq ι] in
def runSchedule (step : σ → α → σ) (m : σ) (s : List (ι × α)) : σ :=
  s.foldl (fun m e => step m e.2) m

/-! ## The steps of a task -/

theorem ownSteps_cons_self (i : ι) (a : α) (s : List (ι × α)) :
    ownSteps ((i, a) :: s) i = a :: ownSteps s i := by
  unfold ownSteps
  rw [List.filter_cons_of_pos (by simp), List.map_cons]

theorem ownSteps_cons_of_ne {e : ι × α} {i : ι} (h : e.1 ≠ i) (s : List (ι × α)) :
    ownSteps (e :: s) i = ownSteps s i := by
  unfold ownSteps
  rw [List.filter_cons_of_neg (by simpa using h)]

theorem ownSteps_append (s t : List (ι × α)) (i : ι) :
    ownSteps (s ++ t) i = ownSteps s i ++ ownSteps t i := by
  unfold ownSteps
  rw [List.filter_append, List.map_append]

theorem mem_ownSteps {s : List (ι × α)} {e : ι × α} (he : e ∈ s) : e.2 ∈ ownSteps s e.1 :=
  List.mem_map_of_mem (List.mem_filter.mpr ⟨he, by simp⟩)

theorem mem_of_mem_ownSteps {s : List (ι × α)} {i : ι} {a : α} (h : a ∈ ownSteps s i) :
    (i, a) ∈ s := by
  have ⟨e, he, hea⟩ := List.mem_map.mp h
  have ⟨hmem, hei⟩ := List.mem_filter.mp he
  rwa [← hea, ← of_decide_eq_true hei]

theorem ownSteps_eq_nil {s : List (ι × α)} {i : ι} (h : ∀ e ∈ s, e.1 ≠ i) : ownSteps s i = [] := by
  unfold ownSteps
  rw [List.filter_eq_nil_iff.mpr fun e he => by simpa using h e he, List.map_nil]

theorem eq_nil_of_ownSteps {s : List (ι × α)} (h : ∀ i, ownSteps s i = []) : s = [] := by
  apply List.eq_nil_iff_forall_not_mem.mpr
  intro e he
  have hmem := mem_ownSteps he
  rw [h e.1] at hmem
  exact List.not_mem_nil hmem

-- The first step of a task stands behind steps of other tasks only.
theorem exists_split_of_ownSteps {s : List (ι × α)} {i : ι} {a : α} {rest : List α}
    (h : ownSteps s i = a :: rest) :
    ∃ pre post, s = pre ++ (i, a) :: post ∧ ∀ e ∈ pre, e.1 ≠ i := by
  induction s with
  | nil => cases h
  | cons e s ih =>
    by_cases he : e.1 = i
    · have hcons : ownSteps (e :: s) i = e.2 :: ownSteps s i := by
        rw [← he]
        exact ownSteps_cons_self e.1 e.2 s
      have ha : e.2 = a := (List.cons.inj (hcons.symm.trans h)).1
      exact ⟨[], s, by rw [← he, ← ha]; rfl, fun x hx => absurd hx List.not_mem_nil⟩
    · rw [ownSteps_cons_of_ne he] at h
      have ⟨pre, post, hs, hpre⟩ := ih h
      refine ⟨e :: pre, post, by rw [hs]; rfl, fun x hx => ?_⟩
      rcases List.mem_cons.mp hx with hx | hx
      · rw [hx]
        exact he
      · exact hpre x hx

/-! ## Reordering -/

section Run

omit [DecidableEq ι]

variable {step : σ → α → σ}

theorem runSchedule_cons (m : σ) (e : ι × α) (s : List (ι × α)) :
    runSchedule step m (e :: s) = runSchedule step (step m e.2) s := rfl

theorem runSchedule_append (m : σ) (s t : List (ι × α)) :
    runSchedule step m (s ++ t) = runSchedule step (runSchedule step m s) t := List.foldl_append

theorem runSchedule_comm (a : α) (s : List (ι × α))
    (hcomm : ∀ e ∈ s, ∀ m, step (step m e.2) a = step (step m a) e.2) (m : σ) :
    step (runSchedule step m s) a = runSchedule step (step m a) s := by
  induction s generalizing m with
  | nil => rfl
  | cons e s ih =>
    rw [runSchedule_cons, runSchedule_cons, ih fun x hx => hcomm x (List.mem_cons_of_mem e hx),
      hcomm e List.mem_cons_self]

end Run

def CrossCommute (step : σ → α → σ) (s : List (ι × α)) : Prop :=
  ∀ e ∈ s, ∀ e' ∈ s, e.1 ≠ e'.1 → ∀ m, step (step m e.2) e'.2 = step (step m e'.2) e.2

-- Two schedules with the same steps for each task end in the same state.
theorem runSchedule_eq_of_ownSteps {step : σ → α → σ} {s s' : List (ι × α)}
    (hown : ∀ i, ownSteps s i = ownSteps s' i) (hcomm : CrossCommute step s') (m : σ) :
    runSchedule step m s = runSchedule step m s' := by
  induction s generalizing s' m with
  | nil => rw [eq_nil_of_ownSteps fun i => (hown i).symm]
  | cons e s ih =>
    obtain ⟨i, a⟩ := e
    -- The first step of `s` is moved to the front of `s'`.
    have hfirst : ownSteps s' i = a :: ownSteps s i := by rw [← hown i, ownSteps_cons_self]
    have ⟨pre, post, hs', hpre⟩ := exists_split_of_ownSteps hfirst
    subst hs'
    have hmove : ∀ e ∈ pre, ∀ m, step (step m e.2) a = step (step m a) e.2 := fun e he =>
      hcomm e (by simp [he]) (i, a) (by simp) (hpre e he)
    have hrest : ∀ j, ownSteps s j = ownSteps (pre ++ post) j := by
      intro j
      have hj := hown j
      rw [ownSteps_append] at hj ⊢
      by_cases hij : i = j
      · subst hij
        rw [ownSteps_cons_self, ownSteps_cons_self, ownSteps_eq_nil hpre] at hj
        rw [ownSteps_eq_nil hpre]
        exact (List.cons.inj hj).2
      · rwa [ownSteps_cons_of_ne hij, ownSteps_cons_of_ne hij] at hj
    have hsub : ∀ e ∈ pre ++ post, e ∈ pre ++ (i, a) :: post := by
      intro e he
      simp only [List.mem_append, List.mem_cons] at he ⊢
      tauto
    have hcomm' : CrossCommute step (pre ++ post) := fun e he e' he' =>
      hcomm e (hsub e he) e' (hsub e' he')
    calc runSchedule step m ((i, a) :: s)
        = runSchedule step (step m a) (pre ++ post) := ih hrest hcomm' (step m a)
      _ = runSchedule step (runSchedule step (step m a) pre) post := runSchedule_append _ pre post
      _ = runSchedule step (step (runSchedule step m pre) a) post := by
          rw [runSchedule_comm a pre hmove m]
      _ = runSchedule step m (pre ++ (i, a) :: post) :=
          (runSchedule_append m pre ((i, a) :: post)).symm

/-- All interleavings of tasks whose steps commute across tasks end in the same state. -/
theorem Interleaves.runSchedule_eq {step : σ → α → σ} {tasks : ι → List α} {s s' : List (ι × α)}
    (hs : Interleaves tasks s) (hs' : Interleaves tasks s')
    (hcomm : ∀ i j, i ≠ j → ∀ a ∈ tasks i, ∀ b ∈ tasks j, ∀ m,
      step (step m a) b = step (step m b) a) (m : σ) :
    runSchedule step m s = runSchedule step m s' := by
  apply runSchedule_eq_of_ownSteps fun i => (hs i).trans (hs' i).symm
  intro e he e' he' hne
  apply hcomm e.1 e'.1 hne
  · rw [← hs' e.1]
    exact mem_ownSteps he
  · rw [← hs' e'.1]
    exact mem_ownSteps he'

/-! ## Isolation -/

theorem view_runSchedule {step : σ → α → σ} (i : ι) (view : σ → β) (own : β → α → β)
    (hown : ∀ m a, view (step m a) = own (view m) a) (s : List (ι × α))
    (hother : ∀ e ∈ s, e.1 ≠ i → ∀ b, own b e.2 = b) (m : σ) :
    view (runSchedule step m s) = (ownSteps s i).foldl own (view m) := by
  induction s generalizing m with
  | nil => rfl
  | cons e s ih =>
    have htail := ih (fun x hx => hother x (List.mem_cons_of_mem e hx)) (step m e.2)
    rw [runSchedule_cons, htail, hown]
    by_cases he : e.1 = i
    · subst he
      rw [ownSteps_cons_self e.1 e.2, List.foldl_cons]
    · rw [ownSteps_cons_of_ne he, hother e List.mem_cons_self he]

/-- What only task `i` can change ends as if the task had run alone. -/
theorem Interleaves.view_runSchedule {step : σ → α → σ} {tasks : ι → List α} {s : List (ι × α)}
    (hs : Interleaves tasks s) (i : ι) (view : σ → β) (own : β → α → β)
    (hown : ∀ m a, view (step m a) = own (view m) a)
    (hother : ∀ j, j ≠ i → ∀ a ∈ tasks j, ∀ b, own b a = b) (m : σ) :
    view (runSchedule step m s) = view ((tasks i).foldl step m) := by
  have hforeign : ∀ e ∈ s, e.1 ≠ i → ∀ b, own b e.2 = b := by
    intro e he hne
    apply hother e.1 hne
    rw [← hs e.1]
    exact mem_ownSteps he
  rw [Reasoning.view_runSchedule i view own hown s hforeign, hs i]
  exact List.foldl_hom view fun m a => (hown m a).symm

/-! ## Building schedules -/

-- The steps of one task, run without a break.
def tagged (i : ι) (steps : List α) : List (ι × α) := steps.map fun a => (i, a)

theorem ownSteps_tagged_self (i : ι) (steps : List α) : ownSteps (tagged i steps) i = steps := by
  induction steps with
  | nil => rfl
  | cons a steps ih =>
    show ownSteps ((i, a) :: tagged i steps) i = a :: steps
    rw [ownSteps_cons_self, ih]

theorem ownSteps_tagged_of_ne {i j : ι} (h : i ≠ j) (steps : List α) :
    ownSteps (tagged i steps) j = [] := by
  apply ownSteps_eq_nil
  intro e he
  have ⟨a, _, ha⟩ := List.mem_map.mp he
  rw [← ha]
  exact h

theorem ownSteps_flatMap_tagged (tasks : ι → List α) {order : List ι} (hnodup : order.Nodup)
    (i : ι) :
    ownSteps (order.flatMap fun j => tagged j (tasks j)) i = if i ∈ order then tasks i else [] := by
  induction order with
  | nil => rfl
  | cons j order ih =>
    have ⟨hj, horder⟩ := List.nodup_cons.mp hnodup
    rw [List.flatMap_cons, ownSteps_append, ih horder]
    by_cases hij : i = j
    · subst hij
      rw [ownSteps_tagged_self, if_neg hj, if_pos List.mem_cons_self, List.append_nil]
    · have hmem : i ∈ j :: order ↔ i ∈ order := by simp [hij]
      rw [ownSteps_tagged_of_ne (Ne.symm hij), List.nil_append]
      exact if_congr hmem.symm rfl rfl

/-- Two tasks can be stopped anywhere and their rests be run one after the other in either order,
behind the same schedule. -/
theorem exists_interleaves_rests [Fintype ι] (tasks : ι → List α) {i j : ι} (hne : i ≠ j)
    {l l' r r' : List α} (hi : tasks i = l ++ l') (hj : tasks j = r ++ r') :
    ∃ pre, Interleaves tasks (pre ++ (tagged i l' ++ tagged j r')) ∧
      Interleaves tasks (pre ++ (tagged j r' ++ tagged i l')) := by
  let others := (Finset.univ.erase i).erase j
  have hothers (k : ι) : ownSteps (others.toList.flatMap fun k => tagged k (tasks k)) k =
      if k ∈ others then tasks k else [] := by
    rw [ownSteps_flatMap_tagged tasks others.nodup_toList]
    exact if_congr Finset.mem_toList rfl rfl
  refine ⟨(others.toList.flatMap fun k => tagged k (tasks k)) ++ (tagged i l ++ tagged j r), ?_, ?_⟩
  all_goals
    intro k
    simp only [ownSteps_append, hothers]
    by_cases hki : k = i
    · subst hki
      simp [others, ownSteps_tagged_self, ownSteps_tagged_of_ne hne.symm, hi]
    · by_cases hkj : k = j
      · subst hkj
        simp [others, ownSteps_tagged_self, ownSteps_tagged_of_ne hne, hj]
      · simp [others, hki, hkj, ownSteps_tagged_of_ne (Ne.symm hki),
          ownSteps_tagged_of_ne (Ne.symm hkj)]

end Bms.Reasoning
