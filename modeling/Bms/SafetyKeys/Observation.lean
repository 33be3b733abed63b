import Bms.Reasoning.Observation
import Bms.SafetyKeys.Interruption

/-!
# What can be observed of the guard key

Callers see the key through the firing query only.  Of its 128 bits the query ever shows whether the
key is armed, since when, and whether it holds the fire token: the state of the interlock, and no
less.  A log of calls on the key comes down to at most two of them.
-/

open Bms.Types Bms.Reasoning

namespace Bms.SafetyKeys

open PyroTriggerKey

/-! ## The interlock behind a key -/

def interlockOf (key : PyroTriggerKey) : Interlock (BitVec 32) :=
  if key.isArmed then .armed key.armedAtMs (key.fireKey == fireMagic) else .safe

-- The event of a call, with the instant as the key stores it.
def KeyCall.mark : KeyCall → Interlock.Event (BitVec 32)
  | .arm timestampMs _ => .arm timestampMs
  | .disarm => .disarm
  | .writeFireKey word => .token (word == fireMagic)

def permits : Interlock (BitVec 32) → BitVec 32 → Bool
  | .armed since true, t => decide (since.toNat ≤ t.toNat ∧ t.toNat ≤ since.toNat + 50)
  | _, _ => false

def keyMachine : Machine PyroTriggerKey KeyCall (BitVec 32) Bool where
  step := KeyCall.exec
  ask := isFireAuthorized

def interlockMachine : Machine (Interlock (BitVec 32)) KeyCall (BitVec 32) Bool where
  step s c := s.next c.mark
  ask := permits

theorem interlockOf_of_armed {key : PyroTriggerKey} (h : key.armKey = armMagic) :
    interlockOf key = .armed key.armedAtMs (key.fireKey == fireMagic) :=
  if_pos (beq_iff_eq.mpr h)

theorem interlockOf_of_not_armed {key : PyroTriggerKey} (h : key.armKey ≠ armMagic) :
    interlockOf key = .safe := if_neg (by simpa [isArmed] using h)

theorem interlockOf_exec (key : PyroTriggerKey) (c : KeyCall) :
    interlockOf (c.exec key) = (interlockOf key).next c.mark := by
  cases c with
  | arm timestampMs seqId => rfl
  | disarm => rfl
  | writeFireKey word =>
    by_cases h : key.armKey = armMagic
    · have h' : (key.writeFireKey word).armKey = armMagic := h
      rw [interlockOf_of_armed h]
      exact interlockOf_of_armed h'
    · have h' : (key.writeFireKey word).armKey ≠ armMagic := h
      rw [interlockOf_of_not_armed h]
      exact interlockOf_of_not_armed h'

theorem isFireAuthorized_eq_permits (key : PyroTriggerKey) (t : BitVec 32) :
    key.isFireAuthorized t = permits (interlockOf key) t := by
  rw [Bool.eq_iff_iff, PyroTriggerKey.isFireAuthorized_iff]
  by_cases harm : key.armKey = armMagic
  · rw [interlockOf_of_armed harm]
    by_cases hfire : key.fireKey = fireMagic
    · simp [permits, harm, hfire]
    · simp [permits, hfire]
  · rw [interlockOf_of_not_armed harm]
    simp [permits, harm]

theorem interlock_view : keyMachine.View interlockMachine interlockOf where
  step := interlockOf_exec
  ask := isFireAuthorized_eq_permits

/-! ## Telling interlock states apart -/

-- The query as such, and the query after supplying a fire token.
def keyTests : List (List KeyCall) := [[], [.writeFireKey fireMagic]]

theorem permits_self (since : BitVec 32) : permits (.armed since true) since = true := by
  simp [permits]

-- A window opens no earlier than its arming.
theorem permits_of_lt {since t : BitVec 32} (h : t.toNat < since.toNat) (token : Bool) :
    permits (.armed since token) t = false := by
  cases token with
  | false => rfl
  | true =>
    apply decide_eq_false
    omega

theorem since_eq_of_permits {since since' : BitVec 32}
    (h : ∀ t, permits (.armed since true) t = permits (.armed since' true) t) : since = since' := by
  apply BitVec.eq_of_toNat_eq
  by_contra hne
  rcases Nat.lt_or_gt_of_ne hne with hlt | hlt
  · have hopen := h since
    rw [permits_self, permits_of_lt hlt] at hopen
    cases hopen
  · have hopen := h since'
    rw [permits_self, permits_of_lt hlt] at hopen
    cases hopen

theorem interlock_separated : interlockMachine.SeparatedBy keyTests := by
  intro s s' h
  have hplain : ∀ t, permits s t = permits s' t := h [] (by simp [keyTests])
  have htoken : ∀ t, permits (s.next (.token true)) t = permits (s'.next (.token true)) t :=
    h [.writeFireKey fireMagic] (by simp [keyTests])
  cases s with
  | safe =>
    cases s' with
    | safe => rfl
    | armed since' token' =>
      have hopen := htoken since'
      change false = permits (.armed since' true) since' at hopen
      rw [permits_self] at hopen
      cases hopen
  | armed since token =>
    cases s' with
    | safe =>
      have hopen := htoken since
      change permits (.armed since true) since = false at hopen
      rw [permits_self] at hopen
      cases hopen
    | armed since' token' =>
      have hsince : since = since' := since_eq_of_permits htoken
      subst hsince
      -- The tokens differ in the query as such.
      have hopen := hplain since
      cases token with
      | false =>
        cases token' with
        | false => rfl
        | true =>
          rw [permits_self] at hopen
          cases hopen
      | true =>
        cases token' with
        | false =>
          rw [permits_self] at hopen
          cases hopen
        | true => rfl

theorem interlockOf_surjective (s : Interlock (BitVec 32)) : ∃ key, interlockOf key = s := by
  cases s with
  | safe => exact ⟨{}, rfl⟩
  | armed since token =>
    cases token with
    | false => exact ⟨{ armKey := armMagic, armedAtMs := since }, rfl⟩
    | true => exact ⟨{ armKey := armMagic, fireKey := fireMagic, armedAtMs := since }, rfl⟩

/-- **The interlock is what can be observed of a key.**  Two keys answer every query alike after
every run of calls exactly when they stand for the same state of the interlock.  The query as such
and the query after one fire token suffice to tell others apart.  Every state of the interlock is
that of some key, and every other model of the queries keeps at least these states apart. -/
theorem keys_indistinguishable_iff (key key' : PyroTriggerKey) :
    ((∀ (calls : List KeyCall) (t : BitVec 32),
        (calls.foldl KeyCall.exec key).isFireAuthorized t =
          (calls.foldl KeyCall.exec key').isFireAuthorized t) ↔
      interlockOf key = interlockOf key') ∧
    ((∀ t, key.isFireAuthorized t = key'.isFireAuthorized t ∧
        (key.writeFireKey fireMagic).isFireAuthorized t =
          (key'.writeFireKey fireMagic).isFireAuthorized t) ↔
      interlockOf key = interlockOf key') ∧
    (∀ s, ∃ key, interlockOf key = s) ∧
    ∀ (τ : Type) (model : Machine τ KeyCall (BitVec 32) Bool) (view : PyroTriggerKey → τ),
      keyMachine.View model view → view key = view key' → interlockOf key = interlockOf key' := by
  have hiff := interlock_view.eq_iff interlock_separated key key'
  refine ⟨hiff.1, ?_, interlockOf_surjective, ?_⟩
  · rw [← hiff.2]
    simp only [keyTests, List.forall_mem_cons, List.not_mem_nil, false_implies, implies_true,
      and_true, forall_and]
    rfl
  · intro τ model view hview heq
    exact interlock_view.coarsest interlock_separated hview heq

end Bms.SafetyKeys
