import Bms.Reasoning.RecordLayout
import Bms.SafetyKeys.Corruption
import Bms.SafetyKeys.Preemption

/-!
# Copies of the guard key

The key is sixteen bytes without padding and may be copied as such.  A copy that is cut off can put
the magic words of one key next to the timestamp of another, but it never completes a magic word that
one side of the cut lacks.
-/

open Bms.Types Bms.Reasoning

namespace Bms.SafetyKeys

open PyroTriggerKey

def keyLayout : RecordLayout keyFile where
  order := keyFields
  nodup := by decide
  mem_order field := by cases field <;> decide
  build words :=
    { armKey := words .armKey
      fireKey := words .fireKey
      armedAtMs := words .armedAtMs
      sequenceId := words .sequenceId }
  get_build words field := by cases field <;> rfl
  member _ := .uint32

def keyBytes (key : PyroTriggerKey) : List Byte := keyLayout.codec.image (fun _ => 0#8) key

def keyOfBytes (bytes : List Byte) : PyroTriggerKey := keyLayout.codec.decode bytes

/-! ## Torn words -/

theorem tornWord_self {w : ℕ} (x : BitVec w) (n : ℕ) : tornWord x x n = x := by
  apply BitVec.eq_of_getLsbD_eq
  intro j hj
  rw [getLsbD_tornWord _ _ _ hj, ite_self]

-- A magic word has bits in its first and in its last byte, so a cut through it shows.
theorem tornWord_eq_magic_iff {old new magic : BitVec 32} (hlow : magic.getLsbD 2 = true)
    (hhigh : magic.getLsbD 30 = true) (hold : old = 0#32 ∨ old = magic)
    (hnew : new = 0#32 ∨ new = magic) (n : ℕ) :
    tornWord old new n = magic ↔ (new = magic ∨ n = 0) ∧ (old = magic ∨ 4 ≤ n) := by
  have hne : (0#32 : BitVec 32) ≠ magic := by
    intro h
    rw [← h] at hlow
    simp at hlow
  rcases hold with h | h
  · rcases hnew with h' | h'
    · rw [h, h', tornWord_self]
      simp only [hne, false_or, false_iff]
      omega
    · -- The last byte is new only when all four are.
      rw [h, h']
      simp only [hne, true_or, true_and, false_or]
      apply Iff.intro
      · intro htorn
        by_contra hn
        rw [← htorn, getLsbD_tornWord _ _ _ (by decide), if_neg (by omega)] at hhigh
        simp at hhigh
      · exact fun hn => tornWord_of_le _ _ (by omega)
  · rcases hnew with h' | h'
    · -- The first byte is new as soon as one is.
      rw [h, h']
      simp only [hne, false_or, true_or, and_true]
      apply Iff.intro
      · intro htorn
        by_contra hn
        rw [← htorn, getLsbD_tornWord _ _ _ (by decide), if_pos (by omega)] at hlow
        simp at hlow
      · intro hn
        rw [hn, tornWord_zero]
    · rw [h, h', tornWord_self]
      simp

/-! ## Torn keys -/

theorem load_tornKey (old new : PyroTriggerKey) (n : ℕ) (field : KeyField) :
    (keyOfBytes (memcpy (keyBytes old) (keyBytes new) n)).load field =
      tornWord (old.load field) (new.load field) (n - keyLayout.offset field) := by
  have hbytes := keyLayout.get_decode_torn (fun _ => 0#8) (fun _ => 0#8) old new n field
  exact hbytes.trans (leWord_memcpy (by decide) _ _ _)

theorem tornKey_isFireAuthorized_iff {old new : PyroTriggerKey} (hold : Intact old)
    (hnew : Intact new) (n : ℕ) (t : BitVec 32) :
    (keyOfBytes (memcpy (keyBytes old) (keyBytes new) n)).isFireAuthorized t = true ↔
      ((new.armKey = armMagic ∨ n = 0) ∧ (old.armKey = armMagic ∨ 4 ≤ n)) ∧
      ((new.fireKey = fireMagic ∨ n ≤ 4) ∧ (old.fireKey = fireMagic ∨ 8 ≤ n)) ∧
        (tornWord old.armedAtMs new.armedAtMs (n - 8)).toNat ≤ t.toNat ∧
        t.toNat ≤ (tornWord old.armedAtMs new.armedAtMs (n - 8)).toNat + 50 := by
  have harm : (keyOfBytes (memcpy (keyBytes old) (keyBytes new) n)).armKey =
      tornWord old.armKey new.armKey n := load_tornKey old new n .armKey
  have hfire : (keyOfBytes (memcpy (keyBytes old) (keyBytes new) n)).fireKey =
      tornWord old.fireKey new.fireKey (n - 4) := load_tornKey old new n .fireKey
  have hsince : (keyOfBytes (memcpy (keyBytes old) (keyBytes new) n)).armedAtMs =
      tornWord old.armedAtMs new.armedAtMs (n - 8) := load_tornKey old new n .armedAtMs
  have hcut : n - 4 = 0 ↔ n ≤ 4 := by omega
  have hcut' : 4 ≤ n - 4 ↔ 8 ≤ n := by omega
  rw [PyroTriggerKey.isFireAuthorized_iff, harm, hfire, hsince,
    tornWord_eq_magic_iff (by decide) (by decide) hold.1 hnew.1,
    tornWord_eq_magic_iff (by decide) (by decide) hold.2 hnew.2, hcut, hcut']

/-- **Copies of the key.**  Keys have the same bytes exactly when they are equal, and a copy of all
bytes is a copy of the key.  Let two keys be reached by `arm`, `disarm` and the fire token, and copy
one over the other up to byte `n`.  The copy authorises at `t` exactly when each magic word is in
place in the new key as far as its bytes were copied, and in the old one as far as they were not,
and the window of the timestamp that the cut leaves is open. -/
theorem keyCopies_authorized_iff :
    (∀ key key' : PyroTriggerKey, (keyBytes key = keyBytes key' ↔ key = key') ∧
      keyOfBytes (memcpy (keyBytes key) (keyBytes key') 16) = key') ∧
    ∀ (calls calls' : List KeyCall),
      (∀ c ∈ calls ++ calls', ∀ word, c = .writeFireKey word → word = fireMagic) →
      ∀ (n : ℕ) (t : BitVec 32),
        let old := runCalls calls
        let new := runCalls calls'
        (keyOfBytes (memcpy (keyBytes old) (keyBytes new) n)).isFireAuthorized t = true ↔
          ((new.armKey = armMagic ∨ n = 0) ∧ (old.armKey = armMagic ∨ 4 ≤ n)) ∧
          ((new.fireKey = fireMagic ∨ n ≤ 4) ∧ (old.fireKey = fireMagic ∨ 8 ≤ n)) ∧
            (tornWord old.armedAtMs new.armedAtMs (n - 8)).toNat ≤ t.toNat ∧
            t.toNat ≤ (tornWord old.armedAtMs new.armedAtMs (n - 8)).toNat + 50 := by
  apply And.intro
  · intro key key'
    have hnone : paddingPositions keyLayout.codec.slots = [] := by decide
    have hsize : keyLayout.codec.size = 16 := by decide
    apply And.intro
    · rw [keyBytes, keyBytes, StructCodec.image_eq_iff, hnone]
      simp
    · have hcopy := keyLayout.codec.decode_memcpy (fun _ => 0#8) key' (keyBytes key)
      rwa [hsize] at hcopy
  · intro calls calls' htokens n t old new
    have ⟨hcalls, hcalls'⟩ := List.forall_mem_append.mp htokens
    exact tornKey_isFireAuthorized_iff (intact_runCalls calls hcalls) (intact_runCalls calls' hcalls')
      n t

-- The first eight bytes of an expired key, its arm word and its token, copied over a newer arming.
theorem keyCopies_authorized_staleToken :
    (keyOfBytes (memcpy (keyBytes (runCalls [.arm 1000#32 2#32]))
      (keyBytes (runCalls [.arm 100#32 1#32, .writeFireKey fireMagic])) 8)).isFireAuthorized
        1020#32 = true := by
  apply (keyCopies_authorized_iff.2 [.arm 1000#32 2#32] [.arm 100#32 1#32, .writeFireKey fireMagic]
    (by simp) 8 1020#32).mpr
  decide +kernel

end Bms.SafetyKeys
