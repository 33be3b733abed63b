import Bms.Reasoning.LeastFlips
import Bms.Types.SafetyKeys

/-!
# The distance of a key from firing

How many bits of a key have to flip before the query at a given time authorises firing: the distance
of each magic word from the word in its place, and the distance of the timestamp from the nearest
one whose window is open.
-/

open Bms.Types Bms.Reasoning

namespace Bms.SafetyKeys

open PyroTriggerKey

-- The distance of the word from the timestamps whose window is open at `t`.
def windowDist (word t : BitVec 32) : ℕ :=
  (Finset.Icc (t.toNat - 50) t.toNat).inf' ⟨t.toNat, by simp⟩ fun n =>
    wordDist word (BitVec.ofNat 32 n)

def firingDist (key : PyroTriggerKey) (t : BitVec 32) : ℕ :=
  wordDist key.armKey armMagic + wordDist key.fireKey fireMagic + windowDist key.armedAtMs t

local instance keyFieldFintype : Fintype KeyField where
  elems := {.armKey, .fireKey, .armedAtMs, .sequenceId}
  complete field := by cases field <;> decide

-- The words that authorise firing at `t`, field by field.
def firingWords (t : BitVec 32) : KeyField → Set (BitVec 32)
  | .armKey => {armMagic}
  | .fireKey => {fireMagic}
  | .armedAtMs => {since | since.toNat ≤ t.toNat ∧ t.toNat ≤ since.toNat + 50}
  | .sequenceId => Set.univ

def fieldDist (key : PyroTriggerKey) (t : BitVec 32) : KeyField → ℕ
  | .armKey => wordDist key.armKey armMagic
  | .fireKey => wordDist key.fireKey fireMagic
  | .armedAtMs => windowDist key.armedAtMs t
  | .sequenceId => 0

theorem sum_fieldDist (key : PyroTriggerKey) (t : BitVec 32) :
    ∑ field, fieldDist key t field = firingDist key t := by
  have huniv : (Finset.univ : Finset KeyField) = {.armKey, .fireKey, .armedAtMs, .sequenceId} := rfl
  rw [huniv]
  simp [fieldDist, firingDist, Nat.add_assoc]

theorem isFireAuthorized_iff_words (key : PyroTriggerKey) (t : BitVec 32) :
    key.isFireAuthorized t = true ↔ ∀ field, key.load field ∈ firingWords t field := by
  rw [PyroTriggerKey.isFireAuthorized_iff]
  apply Iff.intro
  · intro h field
    cases field with
    | armKey => exact h.1
    | fireKey => exact h.2.1
    | armedAtMs => exact h.2.2
    | sequenceId => exact Set.mem_univ _
  · intro h
    exact ⟨h .armKey, h .fireKey, h .armedAtMs⟩

/-! ## Distances of single words -/

theorem isLeast_wordDist_singleton (x y : BitVec 32) :
    IsLeast {n | ∃ z ∈ ({y} : Set (BitVec 32)), wordDist x z = n} (wordDist x y) := by
  refine ⟨⟨y, rfl, rfl⟩, ?_⟩
  intro n hn
  have ⟨z, hz, hdist⟩ := hn
  rw [← hdist, Set.mem_singleton_iff.mp hz]

theorem isLeast_windowDist (word t : BitVec 32) :
    IsLeast {n | ∃ since ∈ firingWords t .armedAtMs, wordDist word since = n}
      (windowDist word t) := by
  apply And.intro
  · have ⟨n, hn, hmin⟩ := Finset.exists_mem_eq_inf' (s := Finset.Icc (t.toNat - 50) t.toNat)
      ⟨t.toNat, by simp⟩ fun n => wordDist word (BitVec.ofNat 32 n)
    rw [Finset.mem_Icc] at hn
    refine ⟨BitVec.ofNat 32 n, ?_, hmin.symm⟩
    have hlt : n < 2 ^ 32 := lt_of_le_of_lt hn.2 t.isLt
    show (BitVec.ofNat 32 n).toNat ≤ t.toNat ∧ t.toNat ≤ (BitVec.ofNat 32 n).toNat + 50
    rw [BitVec.toNat_ofNat, Nat.mod_eq_of_lt hlt]
    omega
  · intro n hn
    have ⟨since, hwindow, hdist⟩ := hn
    have hmem : since.toNat ∈ Finset.Icc (t.toNat - 50) t.toNat := by
      rw [Finset.mem_Icc]
      change since.toNat ≤ t.toNat ∧ t.toNat ≤ since.toNat + 50 at hwindow
      omega
    have hle := Finset.inf'_le (fun n => wordDist word (BitVec.ofNat 32 n)) hmem
    rw [BitVec.ofNat_toNat, BitVec.setWidth_eq, hdist] at hle
    exact hle

theorem isLeast_fieldDist (key : PyroTriggerKey) (t : BitVec 32) (field : KeyField) :
    IsLeast {n | ∃ word ∈ firingWords t field, wordDist (key.load field) word = n}
      (fieldDist key t field) := by
  cases field with
  | armKey => exact isLeast_wordDist_singleton _ _
  | fireKey => exact isLeast_wordDist_singleton _ _
  | armedAtMs => exact isLeast_windowDist _ _
  | sequenceId => exact ⟨⟨_, Set.mem_univ _, wordDist_self _⟩, fun n _ => Nat.zero_le n⟩

/-! ## Flips of the key -/

theorem load_flipSet (key : PyroTriggerKey) (bits : Finset (KeyField × Fin 32)) :
    (key.flipSet bits).load = xorSet key.load bits := by
  funext field
  cases field <;> rfl

theorem load_flip (key : PyroTriggerKey) (b : KeyField × Fin 32) :
    (key.flip b.1 b.2).load = flipAt key.load b := by
  funext field
  unfold flipAt PyroTriggerKey.flip
  by_cases h : field = b.1
  · subst h
    rw [Function.update_self, load_store_self]
  · rw [Function.update_of_ne h, load_store_of_ne _ _ h]

-- The key after single upsets, in the order of the list.
def flipAll (key : PyroTriggerKey) (flips : List (KeyField × Fin 32)) : PyroTriggerKey :=
  flips.foldl (fun key b => key.flip b.1 b.2) key

theorem load_flipAll (key : PyroTriggerKey) (flips : List (KeyField × Fin 32)) :
    (flipAll key flips).load = runFlips flips key.load := by
  unfold flipAll runFlips
  induction flips generalizing key with
  | nil => rfl
  | cons b flips ih =>
    rw [List.foldl_cons, List.foldl_cons, ih, load_flip]

/-- **The exact distance from firing.**  The least number of distinct bits whose flipping makes the
query at `t` authorise, and the least length of a run of upsets that does, bits hit repeatedly
included, are the distances of the two magic words and of the nearest open window added up. -/
theorem firingDist_isLeast (key : PyroTriggerKey) (t : BitVec 32) :
    IsLeast {n | ∃ bits, bits.card = n ∧ (key.flipSet bits).isFireAuthorized t = true}
      (firingDist key t) ∧
    IsLeast {n | ∃ flips, flips.length = n ∧ (flipAll key flips).isFireAuthorized t = true}
      (firingDist key t) := by
  simp only [isFireAuthorized_iff_words, load_flipSet, load_flipAll, ← sum_fieldDist]
  exact ⟨isLeast_card (isLeast_fieldDist key t), isLeast_length (isLeast_fieldDist key t)⟩

-- A disarmed key at startup is 32 flips away, a key armed at 0 whose token is there only one at 64 ms.
example : firingDist {} 10#32 = 32 ∧
    firingDist { armKey := armMagic, fireKey := fireMagic } 64#32 = 1 := by decide +kernel

end Bms.SafetyKeys
