import Bms.SafetyKeys.History

/-!
# Interrupted calls on the guard key

`arm` and `disarm` store four fields one by one.  A reader that preempts a call sees the stores made
so far on top of the old key.  The only half-updated key that authorises more than the old one did
is that of an `arm` cut off right after its first store, on a disarmed key that already holds a fire
token; its arming timestamp still reads zero.
-/

open Bms.Types Bms.Reasoning

namespace Bms.SafetyKeys

open PyroTriggerKey

/-! ## Prefixes of the stores -/

/-- A call that stores all four fields. -/
inductive ResetCall
  | arm (timestampMs seqId : BitVec 32)
  | disarm
deriving DecidableEq, Repr

def ResetCall.isArm : ResetCall → Bool
  | .arm .. => true
  | .disarm => false

def ResetCall.stores : ResetCall → List (KeyField × BitVec 32)
  | .arm timestampMs seqId => armStores timestampMs seqId
  | .disarm => disarmStores

-- The key as a reader sees it after the first `n` stores of the call.
def interrupted (key : PyroTriggerKey) (call : ResetCall) (n : ℕ) : PyroTriggerKey :=
  key.storeAll (call.stores.take n)

theorem load_storeAll_of_notMem (key : PyroTriggerKey) (field : KeyField)
    (stores : List (KeyField × BitVec 32)) (h : ∀ s ∈ stores, s.1 ≠ field) :
    (key.storeAll stores).load field = key.load field := by
  induction stores generalizing key with
  | nil => rfl
  | cons s stores ih =>
    have hs : field ≠ s.1 := (h s List.mem_cons_self).symm
    show ((key.store s.1 s.2).storeAll stores).load field = key.load field
    rw [ih _ fun x hx => h x (List.mem_cons_of_mem s hx), load_store_of_ne key s.2 hs]

-- A stored field keeps its word when the later stores of the call are cut off anywhere.
theorem load_storeAll_cons_take (key : PyroTriggerKey) (field : KeyField) (word : BitVec 32)
    (stores : List (KeyField × BitVec 32)) (n : ℕ) (h : field ∉ stores.map Prod.fst) :
    (key.storeAll ((field, word) :: stores.take n)).load field = word := by
  have hlater : ∀ s ∈ stores.take n, s.1 ≠ field := by
    intro s hs hfield
    rw [← hfield] at h
    exact h (List.mem_map_of_mem (List.mem_of_mem_take hs))
  show ((key.store field word).storeAll (stores.take n)).load field = word
  rw [load_storeAll_of_notMem _ field _ hlater, load_store_self]

/-! ## Keys between calls -/

/-- A key that is not armed has been disarmed since, so its timestamp is zero. -/
def ArmedOrCleared (key : PyroTriggerKey) : Prop :=
  key.armKey = armMagic ∨ key.armKey = 0#32 ∧ key.armedAtMs = 0#32

theorem armedOrCleared_exec {key : PyroTriggerKey} (h : ArmedOrCleared key) (c : KeyCall) :
    ArmedOrCleared (c.exec key) := by
  cases c with
  | arm timestampMs seqId => exact Or.inl rfl
  | disarm => exact Or.inr ⟨rfl, rfl⟩
  | writeFireKey word => exact h

theorem armedOrCleared_runCalls (calls : List KeyCall) : ArmedOrCleared (runCalls calls) := by
  apply List.foldlRecOn calls KeyCall.exec (Or.inr ⟨rfl, rfl⟩)
  intro key hkey c _
  exact armedOrCleared_exec hkey c

/-! ## Half-updated keys -/

-- The second store of `arm` clears the fire key.
theorem interrupted_arm_fireKey (key : PyroTriggerKey) (timestampMs seqId : BitVec 32) (n : ℕ) :
    (interrupted key (.arm timestampMs seqId) (n + 2)).fireKey = 0#32 := by
  have hother : KeyField.fireKey ∉ [KeyField.armedAtMs, .sequenceId] := by decide
  exact load_storeAll_cons_take (key.store .armKey armMagic) .fireKey 0#32
    [(.armedAtMs, timestampMs), (.sequenceId, seqId)] n hother

-- The first store of `disarm` clears the arm key.
theorem interrupted_disarm_armKey (key : PyroTriggerKey) (n : ℕ) :
    (interrupted key .disarm (n + 1)).armKey = 0#32 :=
  load_storeAll_cons_take key .armKey 0#32
    [(.fireKey, 0#32), (.armedAtMs, 0#32), (.sequenceId, 0#32)] n (by decide)

theorem isFireAuthorized_of_armKey_ne {key : PyroTriggerKey} (h : key.armKey ≠ armMagic)
    (t : BitVec 32) : key.isFireAuthorized t = false := by
  rw [← Bool.not_eq_true, PyroTriggerKey.isFireAuthorized_iff]
  exact fun hauth => h hauth.1

theorem isFireAuthorized_of_fireKey_ne {key : PyroTriggerKey} (h : key.fireKey ≠ fireMagic)
    (t : BitVec 32) : key.isFireAuthorized t = false := by
  rw [← Bool.not_eq_true, PyroTriggerKey.isFireAuthorized_iff]
  exact fun hauth => h hauth.2.1

-- One store of `arm` on an armed key changes nothing.
theorem interrupted_arm_one_of_armed {key : PyroTriggerKey} (h : key.armKey = armMagic)
    (timestampMs seqId : BitVec 32) : interrupted key (.arm timestampMs seqId) 1 = key := by
  show { key with armKey := armMagic } = key
  rw [← h]

-- One store of `arm` on a disarmed key leaves its fire token with a zero timestamp.
theorem interrupted_arm_one_iff {key : PyroTriggerKey} (h : key.armedAtMs = 0#32)
    (timestampMs seqId t : BitVec 32) :
    (interrupted key (.arm timestampMs seqId) 1).isFireAuthorized t = true ↔
      key.fireKey = fireMagic ∧ t.toNat ≤ 50 := by
  rw [PyroTriggerKey.isFireAuthorized_iff]
  show armMagic = armMagic ∧ key.fireKey = fireMagic ∧ key.armedAtMs.toNat ≤ t.toNat ∧
    t.toNat ≤ key.armedAtMs.toNat + 50 ↔ _
  rw [h]
  simp

-- A half-updated key authorises what the old one refused in one case only.
theorem interrupted_gains_iff {key : PyroTriggerKey} (h : ArmedOrCleared key) (call : ResetCall) (n : ℕ)
    (t : BitVec 32) :
    (interrupted key call n).isFireAuthorized t = true ∧ key.isFireAuthorized t = false ↔
      call.isArm = true ∧ n = 1 ∧ key.isArmed = false ∧ key.fireKey = fireMagic ∧
        t.toNat ≤ 50 := by
  have hsame : ¬ (key.isFireAuthorized t = true ∧ key.isFireAuthorized t = false) := by simp
  cases call with
  | disarm =>
    apply iff_of_false _ fun hcase => Bool.false_ne_true hcase.1
    cases n with
    | zero => exact hsame
    | succ n =>
      have harm : (interrupted key .disarm (n + 1)).armKey ≠ armMagic := by
        rw [interrupted_disarm_armKey]
        decide
      rw [isFireAuthorized_of_armKey_ne harm]
      exact fun hgain => Bool.false_ne_true hgain.1
  | arm timestampMs seqId =>
    rcases n with _ | _ | n
    · exact iff_of_false hsame fun hcase => absurd hcase.2.1 (by decide)
    · by_cases harmed : key.armKey = armMagic
      · rw [Nat.zero_add, interrupted_arm_one_of_armed harmed]
        apply iff_of_false hsame
        intro hcase
        have hnot := hcase.2.2.1
        rw [PyroTriggerKey.isArmed, harmed] at hnot
        exact absurd hnot (by decide)
      · have hzero : key.armedAtMs = 0#32 := (h.resolve_left harmed).2
        have hdisarmed : key.isArmed = false := beq_eq_false_iff_ne.mpr harmed
        rw [Nat.zero_add, interrupted_arm_one_iff hzero, isFireAuthorized_of_armKey_ne harmed t]
        simp [ResetCall.isArm, hdisarmed]
    · have hfire : (interrupted key (.arm timestampMs seqId) (n + 2)).fireKey ≠ fireMagic := by
        rw [interrupted_arm_fireKey]
        decide
      rw [isFireAuthorized_of_fireKey_ne hfire]
      exact iff_of_false (fun hgain => Bool.false_ne_true hgain.1) fun hcase => by omega

/-- **When an interrupted call authorises nothing new.**  On a key reached by any run, an `arm` or
`disarm` cut off after any number of its stores authorises at `t` only what the old key did, with one
exception: an `arm` cut off after its first store, on a key that is not armed but holds the fire
token, at `t ≤ 50`. -/
theorem interrupted_authorizes_iff (calls : List KeyCall) (call : ResetCall) (n : ℕ)
    (t : BitVec 32) :
    ((interrupted (runCalls calls) call n).isFireAuthorized t = true →
        (runCalls calls).isFireAuthorized t = true) ↔
      ¬ (call.isArm = true ∧ n = 1 ∧ (runCalls calls).isArmed = false ∧
        (runCalls calls).fireKey = fireMagic ∧ t.toNat ≤ 50) := by
  rw [← interrupted_gains_iff (armedOrCleared_runCalls calls), not_and, Bool.not_eq_false]

-- A token written to a disarmed key is live from the first store of the next arming on.
theorem interrupted_authorizes_staleToken :
    ¬ ∀ (calls : List KeyCall) (call : ResetCall) (n : ℕ) (t : BitVec 32),
      (interrupted (runCalls calls) call n).isFireAuthorized t = true →
        (runCalls calls).isFireAuthorized t = true := by
  intro h
  have htrue := h [.writeFireKey fireMagic] (.arm 1000#32 1#32) 1 10#32 (by decide)
  have hfalse : (runCalls [.writeFireKey fireMagic]).isFireAuthorized 10#32 = false := by decide
  rw [hfalse] at htrue
  exact Bool.false_ne_true htrue

end Bms.SafetyKeys
