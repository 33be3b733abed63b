import Mathlib

/-!
# Words as sets of bit positions

A word of width `w` is read as the set of the positions of its one bits.  The bitwise operations
become the set operations and the population count becomes the cardinality, so that a program over
flags can be compared with a program over sets.
-/

namespace Bms.Reasoning

variable {w : ℕ}

/-- The positions of the one bits of a word. -/
def positions (x : BitVec w) : Finset (Fin w) := Finset.univ.filter fun i => x.getLsbD i = true

/-- The word whose one bits stand exactly at the given positions. -/
def bitImage (s : Finset (Fin w)) : BitVec w := BitVec.ofFnLE fun i => decide (i ∈ s)

@[simp] theorem mem_positions {x : BitVec w} {i : Fin w} :
    i ∈ positions x ↔ x.getLsbD i = true := by
  simp only [positions, Finset.mem_filter, Finset.mem_univ, true_and]

@[simp] theorem getLsbD_bitImage (s : Finset (Fin w)) (i : Fin w) :
    (bitImage s).getLsbD i = decide (i ∈ s) := by
  simp only [bitImage, BitVec.getLsbD_ofFnLE, i.isLt, dite_true]

@[simp] theorem positions_bitImage (s : Finset (Fin w)) : positions (bitImage s) = s := by
  ext i
  simp only [mem_positions, getLsbD_bitImage, decide_eq_true_eq]

theorem eq_of_getLsbD {x y : BitVec w} (h : ∀ i : Fin w, x.getLsbD i = y.getLsbD i) : x = y :=
  BitVec.eq_of_getLsbD_eq fun i hi => h ⟨i, hi⟩

theorem positions_injective : Function.Injective (positions : BitVec w → Finset (Fin w)) := by
  intro x y h
  apply eq_of_getLsbD
  intro i
  rw [Bool.eq_iff_iff, ← mem_positions, ← mem_positions, h]

@[simp] theorem positions_inj {x y : BitVec w} : positions x = positions y ↔ x = y :=
  positions_injective.eq_iff

@[simp] theorem bitImage_positions (x : BitVec w) : bitImage (positions x) = x :=
  positions_injective (positions_bitImage _)

/-! ## Bitwise operations are set operations -/

@[simp] theorem positions_zero : positions (0#w) = ∅ := by
  ext i
  simp

@[simp] theorem positions_or (x y : BitVec w) : positions (x ||| y) = positions x ∪ positions y := by
  ext i
  simp

@[simp] theorem positions_and (x y : BitVec w) : positions (x &&& y) = positions x ∩ positions y := by
  ext i
  simp

@[simp] theorem positions_xor (x y : BitVec w) :
    positions (x ^^^ y) = symmDiff (positions x) (positions y) := by
  ext i
  simp only [mem_positions, BitVec.getLsbD_xor, Finset.mem_symmDiff]
  cases x.getLsbD i <;> cases y.getLsbD i <;> simp

@[simp] theorem positions_not (x : BitVec w) : positions (~~~x) = (positions x)ᶜ := by
  ext i
  simp

theorem positions_shiftLeft_one (i : Fin w) : positions (1#w <<< i.val) = {i} := by
  ext j
  rw [mem_positions, ← BitVec.twoPow_eq, BitVec.getLsbD_twoPow, Finset.mem_singleton]
  simp [Fin.ext_iff, eq_comm]

theorem positions_eq_empty {x : BitVec w} : positions x = ∅ ↔ x = 0#w := by
  rw [← positions_zero, positions_inj]

theorem positions_nonempty {x : BitVec w} : (positions x).Nonempty ↔ x ≠ 0#w := by
  rw [Finset.nonempty_iff_ne_empty, ne_eq, positions_eq_empty]

theorem and_ne_zero_iff {x y : BitVec w} :
    x &&& y ≠ 0#w ↔ (positions x ∩ positions y).Nonempty := by
  rw [← positions_and, positions_nonempty]

/-! ## Population count -/

theorem cpopNatRec_eq_card (x : BitVec w) (n : ℕ) (hn : n ≤ w) :
    x.cpopNatRec n 0 = ((positions x).filter fun i => i.val < n).card := by
  induction n with
  | zero => simp
  | succ n ih =>
    rw [BitVec.cpopNatRec_succ, BitVec.cpopNatRec_add, ih (by omega)]
    let top : Fin w := ⟨n, hn⟩
    by_cases hbit : x.getLsbD n = true
    · -- The new top bit is set: it joins the positions counted so far.
      have hsplit : ((positions x).filter fun i => i.val < n + 1) =
          insert top ((positions x).filter fun i => i.val < n) := by
        ext i
        simp only [Finset.mem_filter, mem_positions, Finset.mem_insert, Fin.ext_iff, top]
        apply Iff.intro
        · intro hx
          rcases hx with ⟨hi, hlt⟩
          by_cases he : i.val = n
          · exact Or.inl he
          · exact Or.inr ⟨hi, by omega⟩
        · intro hx
          rcases hx with he | ⟨hi, hlt⟩
          · exact ⟨by rw [he]; exact hbit, by omega⟩
          · exact ⟨hi, by omega⟩
      rw [hsplit, Finset.card_insert_of_notMem (by simp [top]), hbit]
      rfl
    · have hsame : ((positions x).filter fun i => i.val < n + 1) =
          (positions x).filter fun i => i.val < n := by
        apply Finset.filter_congr
        intro i hi
        have hne : i.val ≠ n := by
          intro hx
          subst hx
          exact hbit (mem_positions.mp hi)
        omega
      rw [hsame, Bool.eq_false_of_not_eq_true hbit]
      rfl

theorem cpopNatRec_width (x : BitVec w) : x.cpopNatRec w 0 = (positions x).card := by
  rw [cpopNatRec_eq_card x w le_rfl, Finset.filter_true_of_mem fun i _ => i.isLt]

theorem card_positions_le (x : BitVec w) : (positions x).card ≤ w := by
  simpa using Finset.card_le_univ (positions x)

theorem toNat_cpop (x : BitVec w) : x.cpop.toNat = (positions x).card := by
  rw [BitVec.toNat_cpop, cpopNatRec_width]

theorem toNat_cpop_setWidth {v : ℕ} (x : BitVec w) (h : w ≤ v) :
    (x.setWidth v).cpop.toNat = (positions x).card := by
  rw [toNat_cpop, ← Finset.card_map (Fin.castLEEmb h)]
  congr 1
  ext i
  simp only [mem_positions, BitVec.getLsbD_setWidth, i.isLt, decide_true, Bool.true_and,
    Finset.mem_map]
  apply Iff.intro
  · intro hi
    exact ⟨⟨i, BitVec.lt_of_getLsbD hi⟩, hi, rfl⟩
  · intro hx
    rcases hx with ⟨j, hj, rfl⟩
    exact hj

end Bms.Reasoning
