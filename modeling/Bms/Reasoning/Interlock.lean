import Mathlib

/-!
# Two-stage interlocks

A two-stage interlock is armed at an instant, receives a token, and then authorises an actuation for
a bounded time after the arming.  Arming again or disarming forgets every earlier token.  The time
type is arbitrary, and so is the type `ε` of steps: `read` says what a step means to the interlock.
-/

namespace Bms.Reasoning

/-- What is left of the history of an interlock: nothing, or the instant of the last arming and
whether the last token since is a valid one. -/
inductive Interlock (τ : Type*)
  | safe
  | armed (since : τ) (token : Bool)
deriving DecidableEq

namespace Interlock

-- The meaning of one step. `pass` changes nothing.
inductive Event (τ : Type*)
  | arm (now : τ)
  | disarm
  | token (valid : Bool)
  | pass
deriving DecidableEq

variable {τ ε : Type*}

-- The event arms or disarms, so that it forgets all that came before.
def Event.resets : Event τ → Bool
  | .arm _ | .disarm => true
  | .token _ | .pass => false

def Event.token? : Event τ → Option Bool
  | .token valid => some valid
  | _ => none

def next : Interlock τ → Event τ → Interlock τ
  | _, .arm now => armed now false
  | _, .disarm => safe
  | safe, .token _ => safe
  | armed since _, .token valid => armed since valid
  | s, .pass => s

def after (read : ε → Event τ) (steps : List ε) (s : Interlock τ := safe) : Interlock τ :=
  steps.foldl (fun s e => s.next (read e)) s

-- The interlock was armed, holds a valid token, and the time since the arming is at most `window`.
def Authorised [LE τ] [Add τ] (window : τ) (s : Interlock τ) (now : τ) : Prop :=
  ∃ since, s = armed since true ∧ since ≤ now ∧ now ≤ since + window

@[simp] theorem after_cons (read : ε → Event τ) (e : ε) (steps : List ε) (s : Interlock τ) :
    after read (e :: steps) s = after read steps (s.next (read e)) := rfl

theorem after_append (read : ε → Event τ) (pre post : List ε) (s : Interlock τ) :
    after read (pre ++ post) s = after read post (after read pre s) :=
  List.foldl_append

theorem after_safe (read : ε → Event τ) (steps : List ε)
    (h : ∀ e ∈ steps, (read e).resets = false) : after read steps safe = safe := by
  induction steps with
  | nil => rfl
  | cons e steps ih =>
    have he := h e List.mem_cons_self
    rw [after_cons, show next safe (read e) = safe by cases hr : read e <;> simp_all [next, Event.resets]]
    exact ih fun x hx => h x (List.mem_cons_of_mem e hx)

-- Between two resets the interlock keeps its arming instant and follows the last token.
theorem after_armed (read : ε → Event τ) (steps : List ε) (since : τ) (token : Bool)
    (h : ∀ e ∈ steps, (read e).resets = false) :
    after read steps (armed since token) =
      armed since ((steps.filterMap fun e => (read e).token?).getLast?.getD token) := by
  induction steps generalizing token with
  | nil => rfl
  | cons e steps ih =>
    have he := h e List.mem_cons_self
    have ih' := fun b => ih b fun x hx => h x (List.mem_cons_of_mem e hx)
    rw [after_cons]
    cases hr : read e with
    | arm now => simp [hr, Event.resets] at he
    | disarm => simp [hr, Event.resets] at he
    | token valid =>
      rw [next, ih', List.filterMap_cons_some (b := valid) (by rw [hr]; rfl), List.getLast?_cons]
      rfl
    | pass => rw [next, ih', List.filterMap_cons_none (by rw [hr]; rfl)]

theorem no_reset_or_last (read : ε → Event τ) (steps : List ε) :
    (∀ e ∈ steps, (read e).resets = false) ∨
      ∃ pre e post, steps = pre ++ e :: post ∧ (read e).resets = true ∧
        ∀ x ∈ post, (read x).resets = false := by
  induction steps with
  | nil => exact Or.inl fun e he => absurd he List.not_mem_nil
  | cons e steps ih =>
    rcases ih with hnone | ⟨pre, x, post, rfl, hx, hpost⟩
    · cases he : (read e).resets with
      | false => exact Or.inl (by simpa [he] using hnone)
      | true => exact Or.inr ⟨[], e, steps, rfl, he, hnone⟩
    · exact Or.inr ⟨e :: pre, x, post, rfl, hx, hpost⟩

theorem getD_false_eq_true {o : Option Bool} : o.getD false = true ↔ o = some true := by
  cases o with
  | none => simp
  | some b => rw [Option.getD_some, Option.some.injEq]

-- After an arming and no further one, the interlock is ready to fire exactly when nothing disarmed
-- it and the last token is valid.
theorem after_armed_eq_iff (read : ε → Event τ) (steps : List ε) (since t : τ)
    (hlast : ∀ e ∈ steps, ∀ now, read e ≠ .arm now) :
    after read steps (armed since false) = armed t true ↔
      t = since ∧ (∀ e ∈ steps, (read e).resets = false) ∧
        (steps.filterMap fun e => (read e).token?).getLast? = some true := by
  rcases no_reset_or_last read steps with hnone | ⟨pre, e, post, rfl, he, hpost⟩
  · rw [after_armed read steps since false hnone, armed.injEq, getD_false_eq_true]
    apply Iff.intro
    · intro hready
      rcases hready with ⟨rfl, htoken⟩
      exact ⟨rfl, hnone, htoken⟩
    · intro hready
      rcases hready with ⟨rfl, -, htoken⟩
      exact ⟨rfl, htoken⟩
  · have hdisarm : read e = .disarm := by
      cases hr : read e with
      | arm now => exact absurd hr (hlast e (by simp) now)
      | disarm => rfl
      | token valid => simp [hr, Event.resets] at he
      | pass => simp [hr, Event.resets] at he
    rw [after_append, after_cons, hdisarm, next, after_safe read post hpost]
    apply Iff.intro
    · intro h
      cases h
    · intro hready
      rcases hready with ⟨-, hall, -⟩
      rw [hall e (by simp)] at he
      cases he

/-- A run ends ready to fire exactly when its last reset is an arming and the last token since is
valid. -/
theorem after_eq_armed_true_iff (read : ε → Event τ) (steps : List ε) (since : τ) :
    after read steps = armed since true ↔
      ∃ pre e post, steps = pre ++ e :: post ∧ read e = .arm since ∧
        (∀ x ∈ post, (read x).resets = false) ∧
        (post.filterMap fun x => (read x).token?).getLast? = some true := by
  apply Iff.intro
  · intro h
    rcases no_reset_or_last read steps with hnone | ⟨pre, e, post, rfl, he, hpost⟩
    · rw [after_safe read steps hnone] at h
      cases h
    · refine ⟨pre, e, post, rfl, ?_⟩
      rw [after_append, after_cons] at h
      cases hr : read e with
      | arm now =>
        rw [hr, next, after_armed read post now false hpost, armed.injEq, getD_false_eq_true] at h
        exact ⟨by rw [h.1], hpost, h.2⟩
      | disarm =>
        rw [hr, next, after_safe read post hpost] at h
        cases h
      | token valid => simp [hr, Event.resets] at he
      | pass => simp [hr, Event.resets] at he
  · intro hready
    rcases hready with ⟨pre, e, post, rfl, he, hpost, htoken⟩
    rw [after_append, after_cons, he, next, after_armed read post since false hpost, htoken]
    rfl

-- Where a token is valid when its word is `magic`, the last token is valid exactly when the last
-- word is `magic`.
theorem lastToken_iff {α : Type*} [BEq α] [LawfulBEq α] (magic : α) (read : ε → Event τ)
    (word? : ε → Option α) (hword : ∀ e, (read e).token? = (word? e).map (· == magic))
    (steps : List ε) :
    (steps.filterMap fun e => (read e).token?).getLast? = some true ↔
      (steps.filterMap word?).getLast? = some magic := by
  have hmap : (steps.filterMap fun e => (read e).token?) =
      (steps.filterMap word?).map (· == magic) := by
    rw [List.map_filterMap]
    exact List.filterMap_congr fun e _ => hword e
  rw [hmap, List.getLast?_map, Option.map_eq_some_iff]
  simp only [beq_iff_eq, exists_eq_right]

theorem after_arm (read : ε → Event τ) (pre post : List ε) (e : ε) {now : τ}
    (he : read e = .arm now) : after read (pre ++ e :: post) = after read (e :: post) := by
  rw [after_append, after_cons, after_cons, he]
  rfl

end Interlock

end Bms.Reasoning
