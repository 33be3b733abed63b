import Bms.Reasoning.StructLayout

/-!
# Interrupted copies

A copy that is cut off after `n` bytes leaves the first `n` bytes new and the others old.  So it does
with each member of a struct, counted from the offset of the member: members before the cut are new,
members behind it are old, and one word may be both.
-/

namespace Bms.Reasoning

/-! ## Bytes -/

theorem getElem?_memcpy {dst src : List Byte} (h : dst.length = src.length) (n i : ℕ) :
    (memcpy dst src n)[i]? = if i < n then src[i]? else dst[i]? := by
  unfold memcpy
  by_cases hn : n ≤ src.length
  · have htake : (src.take n).length = n := by rw [List.length_take]; omega
    by_cases hi : i < n
    · rw [List.getElem?_append_left (by omega), List.getElem?_take_of_lt hi, if_pos hi]
    · rw [List.getElem?_append_right (by omega), htake, List.getElem?_drop, if_neg hi]
      congr 1
      omega
  · -- The cut lies behind the end.
    rw [List.take_of_length_le (by omega), List.drop_eq_nil_of_le (by omega), List.append_nil]
    by_cases hi : i < n
    · rw [if_pos hi]
    · rw [if_neg hi, List.getElem?_eq_none (by omega), List.getElem?_eq_none (by omega)]

theorem length_memcpy {dst src : List Byte} (h : dst.length = src.length) (n : ℕ) :
    (memcpy dst src n).length = src.length := by
  unfold memcpy
  rw [List.length_append, List.length_take, List.length_drop]
  omega

-- A part of a cut copy is the copy of the part, cut at the same place.
theorem take_drop_memcpy {dst src : List Byte} (h : dst.length = src.length) (n offset size : ℕ) :
    ((memcpy dst src n).drop offset).take size =
      memcpy ((dst.drop offset).take size) ((src.drop offset).take size) (n - offset) := by
  have hpart : ((dst.drop offset).take size).length = ((src.drop offset).take size).length := by
    simp only [List.length_take, List.length_drop, h]
  apply List.ext_getElem?
  intro i
  rw [getElem?_memcpy hpart]
  by_cases hi : i < size
  · rw [List.getElem?_take_of_lt hi, List.getElem?_take_of_lt hi, List.getElem?_take_of_lt hi,
      List.getElem?_drop, List.getElem?_drop, List.getElem?_drop, getElem?_memcpy h]
    have hcut : offset + i < n ↔ i < n - offset := by omega
    simp only [hcut]
  · have hlen := length_memcpy h n
    rw [List.getElem?_eq_none (by rw [List.length_take]; omega),
      List.getElem?_eq_none (by rw [List.length_take]; omega),
      List.getElem?_eq_none (by rw [List.length_take]; omega), ite_self]

theorem take_memcpy {dst src : List Byte} (h : dst.length = src.length) (n size : ℕ) :
    (memcpy dst src n).take size = memcpy (dst.take size) (src.take size) n :=
  take_drop_memcpy h n 0 size

theorem memcpy_of_length_le {dst src : List Byte} (h : dst.length = src.length) {n : ℕ}
    (hn : src.length ≤ n) : memcpy dst src n = src := by
  unfold memcpy
  rw [List.take_of_length_le hn, List.drop_eq_nil_of_le (by omega), List.append_nil]

/-! ## Words -/

/-- The word whose low `n` bytes are new. -/
def tornWord {w : ℕ} (old new : BitVec w) (n : ℕ) : BitVec w :=
  BitVec.ofFnLE fun j => if j.val < 8 * n then new.getLsbD j else old.getLsbD j

theorem getLsbD_tornWord {w : ℕ} (old new : BitVec w) (n : ℕ) {j : ℕ} (hj : j < w) :
    (tornWord old new n).getLsbD j = if j < 8 * n then new.getLsbD j else old.getLsbD j := by
  simp only [tornWord, BitVec.getLsbD_ofFnLE, hj, dite_true]

theorem tornWord_zero {w : ℕ} (old new : BitVec w) : tornWord old new 0 = old := by
  apply BitVec.eq_of_getLsbD_eq
  intro j hj
  rw [getLsbD_tornWord _ _ _ hj, if_neg (by omega)]

theorem tornWord_of_le {w : ℕ} (old new : BitVec w) {n : ℕ} (h : w ≤ 8 * n) :
    tornWord old new n = new := by
  apply BitVec.eq_of_getLsbD_eq
  intro j hj
  rw [getLsbD_tornWord _ _ _ hj, if_pos (by omega)]

-- The bits behind the cut decide whether the word is the new one.
theorem tornWord_eq_new_iff {w : ℕ} (old new : BitVec w) (n : ℕ) :
    tornWord old new n = new ↔ old >>> (8 * n) = new >>> (8 * n) := by
  apply Iff.intro
  · intro h
    apply BitVec.eq_of_getLsbD_eq
    intro j hj
    rw [BitVec.getLsbD_ushiftRight, BitVec.getLsbD_ushiftRight]
    by_cases hw : 8 * n + j < w
    · rw [← h, getLsbD_tornWord _ _ _ hw, if_neg (by omega)]
    · rw [BitVec.getLsbD_of_ge _ _ (by omega), BitVec.getLsbD_of_ge _ _ (by omega)]
  · intro h
    apply BitVec.eq_of_getLsbD_eq
    intro j hj
    rw [getLsbD_tornWord _ _ _ hj]
    split
    · rfl
    · rename_i hcut
      have hbit := congrArg (fun x => x.getLsbD (j - 8 * n)) h
      simp only [BitVec.getLsbD_ushiftRight] at hbit
      rwa [Nat.add_sub_cancel' (by omega)] at hbit

theorem leWord_memcpy {w m : ℕ} (h : w ≤ 8 * m) (old new : BitVec w) (n : ℕ) :
    leWord w (memcpy (leBytes m old) (leBytes m new) n) = tornWord old new n := by
  have hlen : (leBytes m old).length = (leBytes m new).length := by
    rw [length_leBytes, length_leBytes]
  have hold := leWord_leBytes h old
  have hnew := leWord_leBytes h new
  apply BitVec.eq_of_getLsbD_eq
  intro j hj
  have hcut : j / 8 < n ↔ j < 8 * n := by omega
  -- Bit `j` is read from byte `j / 8`, on one side of the cut.
  have hbit (bytes : List Byte) : (leWord w bytes).getLsbD j =
      (bytes[j / 8]?.getD 0#8).getLsbD (j % 8) := by
    simp only [leWord, BitVec.getLsbD_ofFnLE, hj, dite_true, List.getD_eq_getElem?_getD]
  rw [hbit, getElem?_memcpy hlen, getLsbD_tornWord _ _ _ hj]
  by_cases hn : j < 8 * n
  · rw [if_pos (hcut.mpr hn), if_pos hn, ← hbit, hnew]
  · rw [if_neg (hcut.not.mpr hn), if_neg hn, ← hbit, hold]

/-! ## Members -/

-- The members of two structs, each cut where a copy of `n` bytes ends.
def tornChunks (n : ℕ) : ℕ → List Slot → List (List Byte) → List (List Byte) → List (List Byte)
  | pos, s :: ss, old :: olds, new :: news =>
    let offset := alignUp pos s.align
    memcpy old new (n - offset) :: tornChunks n (offset + s.size) ss olds news
  | _, _, _, _ => []

theorem readFrom_memcpy {dst src : List Byte} (h : dst.length = src.length) (n pos : ℕ)
    (ss : List Slot) :
    readFrom (memcpy dst src n) pos ss =
      tornChunks n pos ss (readFrom dst pos ss) (readFrom src pos ss) := by
  induction ss generalizing pos with
  | nil => rfl
  | cons s ss ih =>
    simp only [readFrom, tornChunks]
    rw [take_drop_memcpy h, ih]

/-- A struct copied up to byte `n` over another one, member by member. -/
theorem StructCodec.decode_torn {α : Type*} (c : StructCodec α) (pad pad' : ℕ → Byte) (old new : α)
    (n : ℕ) :
    c.decode (memcpy (c.image pad old) (c.image pad' new) n) =
      c.ofChunks (tornChunks n 0 c.slots ((c.fields old).map Field.bytes)
        ((c.fields new).map Field.bytes)) := by
  have hlen : (c.image pad old).length = (c.image pad' new).length := by
    rw [c.length_image, c.length_image]
  have hread (pad : ℕ → Byte) (v : α) : readFrom (c.image pad v) 0 c.slots =
      (c.fields v).map Field.bytes := by
    have himage := readFrom_image pad (c.fields v) []
    rw [List.append_nil, c.slots_fields] at himage
    exact himage
  rw [StructCodec.decode, readFrom_memcpy hlen, hread, hread]

end Bms.Reasoning
