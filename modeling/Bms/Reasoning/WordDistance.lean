import Bms.Reasoning.WordBits

/-!
# Hamming distance of words

The distance of two words is the number of positions at which they differ.  Flipping one bit moves
a word by one, so a run that reaches `y` from `x` flips at least `wordDist x y` bits on the way.
-/

namespace Bms.Reasoning

variable {w : ℕ}

/-- The Hamming distance of two words, read as functions on bit positions. -/
def wordDist (x y : BitVec w) : ℕ :=
  hammingDist (fun i : Fin w => x.getLsbD i) (fun i : Fin w => y.getLsbD i)

@[simp] theorem wordDist_self (x : BitVec w) : wordDist x x = 0 := hammingDist_self _

theorem wordDist_triangle (x y z : BitVec w) : wordDist x z ≤ wordDist x y + wordDist y z :=
  hammingDist_triangle _ _ _

theorem wordDist_eq_card_xor (x y : BitVec w) : wordDist x y = (positions (x ^^^ y)).card := by
  unfold wordDist hammingDist
  congr 1
  ext i
  simp only [Finset.mem_filter, Finset.mem_univ, true_and, mem_positions, BitVec.getLsbD_xor,
    bne_iff_ne, ne_eq]

theorem wordDist_xor_right (x m : BitVec w) : wordDist x (x ^^^ m) = (positions m).card := by
  rw [wordDist_eq_card_xor, ← BitVec.xor_assoc, BitVec.xor_self, BitVec.zero_xor]

theorem wordDist_zero_left (x : BitVec w) : wordDist 0#w x = (positions x).card := by
  rw [wordDist_eq_card_xor, BitVec.zero_xor]

def flipBit (x : BitVec w) (i : Fin w) : BitVec w := x ^^^ bitImage {i}

theorem wordDist_flipBit (x : BitVec w) (i : Fin w) : wordDist x (flipBit x i) = 1 := by
  rw [flipBit, wordDist_xor_right, positions_bitImage, Finset.card_singleton]

theorem wordDist_flipBit_le (x y : BitVec w) (i : Fin w) :
    wordDist x (flipBit y i) ≤ wordDist x y + 1 := by
  have h := wordDist_triangle x y (flipBit y i)
  rwa [wordDist_flipBit] at h

-- Two words that a mask carries into each other are as far apart as the mask has bits.
theorem card_of_xor_bitImage_eq {x y : BitVec w} {s : Finset (Fin w)} (h : x ^^^ bitImage s = y) :
    wordDist x y = s.card := by
  rw [← h, wordDist_xor_right, positions_bitImage]

@[simp] theorem bitImage_empty : bitImage (∅ : Finset (Fin w)) = 0#w := by
  rw [← positions_zero, bitImage_positions]

theorem xor_bitImage_eq_self {x : BitVec w} {s : Finset (Fin w)} :
    x ^^^ bitImage s = x ↔ s = ∅ := by
  apply Iff.intro
  · intro h
    have hcard := card_of_xor_bitImage_eq h
    rw [wordDist_self] at hcard
    exact Finset.card_eq_zero.mp hcard.symm
  · intro hx
    subst hx
    rw [bitImage_empty, BitVec.xor_zero]

end Bms.Reasoning
