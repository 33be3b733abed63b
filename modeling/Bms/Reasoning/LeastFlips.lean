import Bms.Reasoning.WordDistance

/-!
# The least number of flipped bits

A memory of words is corrupted bit by bit.  To bring each word into a set of its own takes at least
the sum of the distances of the words from their sets, and that many flips suffice, whether they are
given as a set of distinct bits or as a run in which bits may be hit repeatedly.
-/

namespace Bms.Reasoning

variable {ι : Type*} [DecidableEq ι] {w : ℕ}

/-- The bits of one word among the given bits of the memory. -/
def bitsAt (bits : Finset (ι × Fin w)) (i : ι) : Finset (Fin w) := {j | (i, j) ∈ bits}

def xorSet (m : ι → BitVec w) (bits : Finset (ι × Fin w)) : ι → BitVec w :=
  fun i => m i ^^^ bitImage (bitsAt bits i)

def flipAt (m : ι → BitVec w) (b : ι × Fin w) : ι → BitVec w :=
  Function.update m b.1 (flipBit (m b.1) b.2)

def runFlips (flips : List (ι × Fin w)) (m : ι → BitVec w) : ι → BitVec w := flips.foldl flipAt m

@[simp] theorem mem_bitsAt {bits : Finset (ι × Fin w)} {i : ι} {j : Fin w} :
    j ∈ bitsAt bits i ↔ (i, j) ∈ bits := by
  simp [bitsAt]

theorem getLsbD_xorSet (m : ι → BitVec w) (bits : Finset (ι × Fin w)) (i : ι) (j : Fin w) :
    (xorSet m bits i).getLsbD j = ((m i).getLsbD j ^^ decide ((i, j) ∈ bits)) := by
  unfold xorSet
  rw [BitVec.getLsbD_xor, getLsbD_bitImage]
  simp only [mem_bitsAt]

theorem getLsbD_flipBit (x : BitVec w) (i j : Fin w) :
    (flipBit x i).getLsbD j = (x.getLsbD j ^^ decide (j = i)) := by
  unfold flipBit
  rw [BitVec.getLsbD_xor, getLsbD_bitImage]
  simp only [Finset.mem_singleton]

/-! ## Runs of distinct flips -/

theorem xorSet_empty (m : ι → BitVec w) : xorSet m ∅ = m := by
  funext i
  apply eq_of_getLsbD
  intro j
  rw [getLsbD_xorSet]
  simp only [Finset.notMem_empty, decide_false, Bool.xor_false]

theorem flipAt_xorSet (m : ι → BitVec w) {bits : Finset (ι × Fin w)} {b : ι × Fin w}
    (h : b ∉ bits) : flipAt (xorSet m bits) b = xorSet m (insert b bits) := by
  rcases b with ⟨k, l⟩
  funext i
  unfold flipAt
  by_cases hi : i = k
  · subst hi
    rw [Function.update_self]
    apply eq_of_getLsbD
    intro j
    rw [getLsbD_flipBit, getLsbD_xorSet, getLsbD_xorSet]
    by_cases hj : j = l
    · subst hj
      simp [h]
    · simp [hj]
  · rw [Function.update_of_ne hi]
    apply eq_of_getLsbD
    intro j
    have hother : (i, j) ≠ (k, l) := fun heq => hi (Prod.mk.inj heq).1
    rw [getLsbD_xorSet, getLsbD_xorSet]
    simp only [Finset.mem_insert, hother, false_or]

theorem runFlips_of_nodup (m : ι → BitVec w) {flips : List (ι × Fin w)} (h : flips.Nodup) :
    runFlips flips m = xorSet m flips.toFinset := by
  unfold runFlips
  induction flips using List.reverseRecOn with
  | nil => exact (xorSet_empty m).symm
  | append_singleton flips b ih =>
    have ⟨hb, hflips⟩ := (List.nodup_concat flips b).mp (List.concat_eq_append ▸ h)
    have hnew : b ∉ flips.toFinset := fun hmem => hb (List.mem_toFinset.mp hmem)
    have hset : (flips ++ [b]).toFinset = insert b flips.toFinset := by
      ext x
      simp
    rw [List.foldl_concat, ih hflips, flipAt_xorSet m hnew, hset]

/-! ## Counting flips -/

section Count

variable [Fintype ι]

theorem card_eq_sum_bitsAt (bits : Finset (ι × Fin w)) : bits.card = ∑ i, (bitsAt bits i).card := by
  rw [Finset.card_eq_sum_card_fiberwise (f := Prod.fst) (t := Finset.univ) fun b _ =>
    Finset.mem_coe.mpr (Finset.mem_univ b.1)]
  apply Finset.sum_congr rfl
  intro i _
  rw [← Finset.card_map (Function.Embedding.sectR i (Fin w))]
  congr 1
  ext b
  rcases b with ⟨k, j⟩
  simp only [Finset.mem_filter, Finset.mem_map, mem_bitsAt, Function.Embedding.sectR_apply,
    Prod.mk.injEq]
  apply Iff.intro
  · intro h
    exact ⟨j, h.2 ▸ h.1, h.2.symm, rfl⟩
  · intro h
    have ⟨j', hmem, hk, hj⟩ := h
    subst hk
    subst hj
    exact ⟨hmem, rfl⟩

theorem card_eq_sum_wordDist (m : ι → BitVec w) (bits : Finset (ι × Fin w)) :
    bits.card = ∑ i, wordDist (m i) (xorSet m bits i) := by
  rw [card_eq_sum_bitsAt]
  apply Finset.sum_congr rfl
  intro i _
  exact (card_of_xor_bitImage_eq rfl).symm

-- Each flip moves one word by one.
theorem sum_wordDist_flipAt_le (m m' : ι → BitVec w) (b : ι × Fin w) :
    ∑ i, wordDist (m i) (flipAt m' b i) ≤ ∑ i, wordDist (m i) (m' i) + 1 := by
  have hword (i : ι) :
      wordDist (m i) (flipAt m' b i) ≤ wordDist (m i) (m' i) + if i = b.1 then 1 else 0 := by
    unfold flipAt
    by_cases hi : i = b.1
    · subst hi
      rw [Function.update_self, if_pos rfl]
      exact wordDist_flipBit_le _ _ _
    · rw [Function.update_of_ne hi, if_neg hi]
      exact le_rfl
  calc ∑ i, wordDist (m i) (flipAt m' b i)
      ≤ ∑ i, (wordDist (m i) (m' i) + if i = b.1 then 1 else 0) :=
        Finset.sum_le_sum fun i _ => hword i
    _ = ∑ i, wordDist (m i) (m' i) + 1 := by
        rw [Finset.sum_add_distrib, Finset.sum_ite_eq' Finset.univ b.1, if_pos (Finset.mem_univ _)]

theorem sum_wordDist_runFlips_le (flips : List (ι × Fin w)) (m : ι → BitVec w) :
    ∑ i, wordDist (m i) (runFlips flips m i) ≤ flips.length := by
  unfold runFlips
  induction flips using List.reverseRecOn with
  | nil => simp
  | append_singleton flips b ih =>
    rw [List.foldl_concat, List.length_append, List.length_singleton]
    have hstep := sum_wordDist_flipAt_le m (flips.foldl flipAt m) b
    omega

/-! ## The least number of flips -/

-- The bits at which two memories differ.
def diffBits (m m' : ι → BitVec w) : Finset (ι × Fin w) :=
  {b | (m b.1).getLsbD b.2 ≠ (m' b.1).getLsbD b.2}

theorem xorSet_diffBits (m m' : ι → BitVec w) : xorSet m (diffBits m m') = m' := by
  funext i
  apply eq_of_getLsbD
  intro j
  rw [getLsbD_xorSet]
  simp only [diffBits, Finset.mem_filter, Finset.mem_univ, true_and]
  cases (m i).getLsbD j <;> cases (m' i).getLsbD j <;> rfl

variable {m : ι → BitVec w} {target : ι → Set (BitVec w)} {d : ι → ℕ}

omit [DecidableEq ι] in
theorem exists_nearest (hd : ∀ i, IsLeast {n | ∃ x ∈ target i, wordDist (m i) x = n} (d i)) :
    ∃ m' : ι → BitVec w, (∀ i, m' i ∈ target i) ∧ ∑ i, wordDist (m i) (m' i) = ∑ i, d i := by
  have hmem (i : ι) : ∃ x ∈ target i, wordDist (m i) x = d i := (hd i).1
  choose m' htarget hdist using hmem
  exact ⟨m', htarget, Finset.sum_congr rfl fun i _ => hdist i⟩

omit [DecidableEq ι] in
theorem sum_le_of_mem_target (hd : ∀ i, IsLeast {n | ∃ x ∈ target i, wordDist (m i) x = n} (d i))
    {m' : ι → BitVec w} (h : ∀ i, m' i ∈ target i) :
    ∑ i, d i ≤ ∑ i, wordDist (m i) (m' i) :=
  Finset.sum_le_sum fun i _ => (hd i).2 ⟨m' i, h i, rfl⟩

theorem isLeast_card (hd : ∀ i, IsLeast {n | ∃ x ∈ target i, wordDist (m i) x = n} (d i)) :
    IsLeast {n | ∃ bits, bits.card = n ∧ ∀ i, xorSet m bits i ∈ target i} (∑ i, d i) := by
  apply And.intro
  · have ⟨m', htarget, hsum⟩ := exists_nearest hd
    refine ⟨diffBits m m', ?_, by rwa [xorSet_diffBits]⟩
    rw [card_eq_sum_wordDist m, xorSet_diffBits, hsum]
  · intro n hn
    have ⟨bits, hcard, htarget⟩ := hn
    rw [← hcard, card_eq_sum_wordDist m]
    exact sum_le_of_mem_target hd htarget

theorem isLeast_length (hd : ∀ i, IsLeast {n | ∃ x ∈ target i, wordDist (m i) x = n} (d i)) :
    IsLeast {n | ∃ flips, flips.length = n ∧ ∀ i, runFlips flips m i ∈ target i} (∑ i, d i) := by
  apply And.intro
  · have ⟨bits, hcard, htarget⟩ := (isLeast_card hd).1
    refine ⟨bits.toList, by rw [Finset.length_toList, hcard], ?_⟩
    rwa [runFlips_of_nodup m bits.nodup_toList, Finset.toList_toFinset]
  · intro n hn
    have ⟨flips, hlength, htarget⟩ := hn
    rw [← hlength]
    exact (sum_le_of_mem_target hd htarget).trans (sum_wordDist_runFlips_le flips m)

end Count

end Bms.Reasoning
