import Bms.Reasoning.WordDistance

/-!
# Pyrotechnic actuation guard key

`PyroTriggerKey` of `safety_keys.hpp`: the arm and fire words, the arming timestamp, the operations
on them, and the query that authorises firing.  Every field is a `uint32_t`.
-/

open Bms.Reasoning

namespace Bms.Types

inductive KeyField
  | armKey
  | fireKey
  | armedAtMs
  | sequenceId
deriving DecidableEq, Repr

structure PyroTriggerKey where
  armKey : BitVec 32 := 0#32
  fireKey : BitVec 32 := 0#32
  armedAtMs : BitVec 32 := 0#32
  sequenceId : BitVec 32 := 0#32
deriving DecidableEq, Repr

namespace PyroTriggerKey

def armMagic : BitVec 32 := 0x5A5AA5A5#32

def fireMagic : BitVec 32 := 0xC3C33C3C#32

-- 50 ms maximum time-to-fire window after arming.
def armWindowTimeoutMs : BitVec 32 := 50#32

def load (key : PyroTriggerKey) : KeyField → BitVec 32
  | .armKey => key.armKey
  | .fireKey => key.fireKey
  | .armedAtMs => key.armedAtMs
  | .sequenceId => key.sequenceId

def store (key : PyroTriggerKey) (field : KeyField) (word : BitVec 32) : PyroTriggerKey :=
  match field with
  | .armKey => { key with armKey := word }
  | .fireKey => { key with fireKey := word }
  | .armedAtMs => { key with armedAtMs := word }
  | .sequenceId => { key with sequenceId := word }

-- Field stores taking effect one by one, in the order of the list.
def storeAll (key : PyroTriggerKey) (stores : List (KeyField × BitVec 32)) : PyroTriggerKey :=
  stores.foldl (fun key s => key.store s.1 s.2) key

-- The stores of `arm`, in the order of the function body.
def armStores (timestampMs seqId : BitVec 32) : List (KeyField × BitVec 32) :=
  [(.armKey, armMagic), (.fireKey, 0#32), (.armedAtMs, timestampMs), (.sequenceId, seqId)]

def disarmStores : List (KeyField × BitVec 32) :=
  [(.armKey, 0#32), (.fireKey, 0#32), (.armedAtMs, 0#32), (.sequenceId, 0#32)]

def arm (key : PyroTriggerKey) (timestampMs : BitVec 32) (seqId : BitVec 32 := 0#32) :
    PyroTriggerKey :=
  key.storeAll (armStores timestampMs seqId)

def disarm (key : PyroTriggerKey) : PyroTriggerKey := key.storeAll disarmStores

-- A caller supplies a fire token by a direct store to the public field.
def writeFireKey (key : PyroTriggerKey) (word : BitVec 32) : PyroTriggerKey := key.store .fireKey word

def isArmed (key : PyroTriggerKey) : Bool := key.armKey == armMagic

def isFireAuthorized (key : PyroTriggerKey) (currentTimeMs : BitVec 32) : Bool :=
  if key.armKey != armMagic || key.fireKey != fireMagic then
    false
  else if currentTimeMs < key.armedAtMs then
    false -- clock reversal / underflow guard
  else
    currentTimeMs - key.armedAtMs ≤ armWindowTimeoutMs

-- Single-event upset: one bit of one field changes its value.
def flip (key : PyroTriggerKey) (field : KeyField) (bit : Fin 32) : PyroTriggerKey :=
  key.store field (flipBit (key.load field) bit)

-- Flip a set of distinct bits of the 128 bits of the key.
def flipSet (key : PyroTriggerKey) (bits : Finset (KeyField × Fin 32)) : PyroTriggerKey where
  armKey := key.armKey ^^^ bitImage {i | (.armKey, i) ∈ bits}
  fireKey := key.fireKey ^^^ bitImage {i | (.fireKey, i) ∈ bits}
  armedAtMs := key.armedAtMs ^^^ bitImage {i | (.armedAtMs, i) ∈ bits}
  sequenceId := key.sequenceId ^^^ bitImage {i | (.sequenceId, i) ∈ bits}

/-! ## What the operations do -/

@[simp] theorem load_store_self (key : PyroTriggerKey) (field : KeyField) (word : BitVec 32) :
    (key.store field word).load field = word := by
  cases field <;> rfl

theorem load_store_of_ne (key : PyroTriggerKey) {field other : KeyField} (word : BitVec 32)
    (h : other ≠ field) : (key.store field word).load other = key.load other := by
  cases field <;> cases other <;> first | rfl | exact absurd rfl h

/-- Firing is authorised exactly when both words are in place and the time since the arming, as
natural numbers, is at most 50. -/
theorem isFireAuthorized_iff (key : PyroTriggerKey) (t : BitVec 32) :
    key.isFireAuthorized t = true ↔
      key.armKey = armMagic ∧ key.fireKey = fireMagic ∧
        key.armedAtMs.toNat ≤ t.toNat ∧ t.toNat ≤ key.armedAtMs.toNat + 50 := by
  unfold isFireAuthorized
  by_cases hkeys : key.armKey = armMagic ∧ key.fireKey = fireMagic
  · rw [if_neg (by simp [hkeys])]
    simp only [hkeys, true_and, BitVec.lt_def]
    split
    · simp only [Bool.false_eq_true, false_iff]
      omega
    · rename_i hle
      -- No wrap: the subtraction is the one of natural numbers.
      rw [decide_eq_true_iff, BitVec.le_def, BitVec.toNat_sub_of_le (by rw [BitVec.le_def]; omega)]
      simp only [armWindowTimeoutMs, BitVec.toNat_ofNat, Nat.reducePow, Nat.reduceMod]
      omega
  · rw [if_pos (by simpa [imp_iff_not_or] using not_and_or.mp hkeys)]
    simp only [Bool.false_eq_true, false_iff]
    intro hx
    rcases hx with ⟨ha, hf, -⟩
    exact hkeys ⟨ha, hf⟩

theorem armMagic_weight : (positions armMagic).card = 16 := by decide

theorem fireMagic_weight : (positions fireMagic).card = 16 := by decide

end PyroTriggerKey

end Bms.Types
