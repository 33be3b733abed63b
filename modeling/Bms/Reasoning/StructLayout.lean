import Mathlib

/-!
# Object representations of structs

Members stand in declaration order, each at the least offset that its alignment allows; the size is
rounded up to the largest alignment.  Bytes that belong to no member are padding and hold anything.
A codec is a struct type with its members; its image reads back as the value it was made from.
-/

namespace Bms.Reasoning

abbrev Byte := BitVec 8

/-! ## Little-endian words -/

def leBytes {w : ℕ} (n : ℕ) (x : BitVec w) : List Byte :=
  (List.range n).map fun i => x.extractLsb' (8 * i) 8

def leWord (w : ℕ) (bytes : List Byte) : BitVec w :=
  BitVec.ofFnLE fun j : Fin w => (bytes.getD (j / 8) 0#8).getLsbD (j % 8)

theorem length_leBytes {w : ℕ} (n : ℕ) (x : BitVec w) : (leBytes n x).length = n := by
  rw [leBytes, List.length_map, List.length_range]

theorem leWord_leBytes {w n : ℕ} (h : w ≤ 8 * n) (x : BitVec w) : leWord w (leBytes n x) = x := by
  apply BitVec.eq_of_getLsbD_eq
  intro j hj
  have hbyte : j / 8 < n := by omega
  have hbit : j % 8 < 8 := by omega
  have hpos : 8 * (j / 8) + j % 8 = j := by omega
  simp only [leWord, BitVec.getLsbD_ofFnLE, hj, dite_true, leBytes]
  rw [List.getD_eq_getElem _ _ (by simpa using hbyte), List.getElem_map, List.getElem_range,
    BitVec.getLsbD_extractLsb', hpos]
  simp [hbit]

/-! ## Alignment -/

/-- The least multiple of `a` from `n` on. -/
def alignUp (n a : ℕ) : ℕ := n + (a - n % a) % a

theorem le_alignUp (n a : ℕ) : n ≤ alignUp n a := Nat.le_add_right n _

theorem alignUp_isLeast (n : ℕ) {a : ℕ} (ha : 0 < a) :
    IsLeast {m | n ≤ m ∧ a ∣ m} (alignUp n a) := by
  have hr : n % a < a := Nat.mod_lt n ha
  have hn : a * (n / a) + n % a = n := Nat.div_add_mod n a
  unfold alignUp
  by_cases hz : n % a = 0
  · rw [hz, Nat.sub_zero, Nat.mod_self, Nat.add_zero]
    exact ⟨⟨le_rfl, Nat.dvd_of_mod_eq_zero hz⟩, fun m hm => hm.1⟩
  · have hgap : (a - n % a) % a = a - n % a := Nat.mod_eq_of_lt (by omega)
    have hnext : n + (a - n % a) = a * (n / a + 1) := by rw [Nat.mul_succ]; omega
    rw [hgap, hnext]
    refine ⟨⟨by rw [← hnext]; omega, Nat.dvd_mul_right a _⟩, ?_⟩
    intro m ⟨hnm, k, hk⟩
    -- A smaller multiple would lie in the block of `n`, below `n`.
    have hlt : n / a < k := by
      apply Nat.lt_of_mul_lt_mul_left (a := a)
      omega
    rw [hk]
    exact Nat.mul_le_mul_left a hlt

theorem alignUp_eq_self {n a : ℕ} (ha : 0 < a) (h : a ∣ n) : alignUp n a = n :=
  le_antisymm ((alignUp_isLeast n ha).2 ⟨le_rfl, h⟩) (le_alignUp n a)

/-! ## Images -/

structure Slot where
  size : ℕ
  align : ℕ
deriving DecidableEq, Repr

-- A member with the bytes of its value.
structure Field where
  slot : Slot
  bytes : List Byte
  length_bytes : bytes.length = slot.size

-- The padding bytes at the positions from `start` up to `stop`.
def padding (pad : ℕ → Byte) (start stop : ℕ) : List Byte :=
  (List.range' start (stop - start)).map pad

-- The bytes from position `pos` to the end of the last member.
def imageFrom (pad : ℕ → Byte) : ℕ → List Field → List Byte
  | _, [] => []
  | pos, f :: fs =>
    let offset := alignUp pos f.slot.align
    padding pad pos offset ++ f.bytes ++ imageFrom pad (offset + f.slot.size) fs

def endFrom : ℕ → List Slot → ℕ
  | pos, [] => pos
  | pos, s :: ss => endFrom (alignUp pos s.align + s.size) ss

def structAlign (ss : List Slot) : ℕ := ss.foldr (fun s a => max s.align a) 1

def structSize (ss : List Slot) : ℕ := alignUp (endFrom 0 ss) (structAlign ss)

/-- The object representation, tail padding included. -/
def image (pad : ℕ → Byte) (fs : List Field) : List Byte :=
  imageFrom pad 0 fs ++
    padding pad (endFrom 0 (fs.map Field.slot)) (structSize (fs.map Field.slot))

-- The bytes of each member, read at its offset.
def readFrom (bytes : List Byte) : ℕ → List Slot → List (List Byte)
  | _, [] => []
  | pos, s :: ss =>
    let offset := alignUp pos s.align
    (bytes.drop offset).take s.size :: readFrom bytes (offset + s.size) ss

theorem length_padding (pad : ℕ → Byte) (start stop : ℕ) :
    (padding pad start stop).length = stop - start := by
  rw [padding, List.length_map, List.length_range']

theorem structAlign_pos (ss : List Slot) : 0 < structAlign ss := by
  induction ss with
  | nil => exact Nat.one_pos
  | cons s ss ih => exact lt_max_of_lt_right ih

theorem add_length_imageFrom (pad : ℕ → Byte) (pos : ℕ) (fs : List Field) :
    pos + (imageFrom pad pos fs).length = endFrom pos (fs.map Field.slot) := by
  induction fs generalizing pos with
  | nil => rfl
  | cons f fs ih =>
    have hle := le_alignUp pos f.slot.align
    have hrest := ih (alignUp pos f.slot.align + f.slot.size)
    simp only [imageFrom, List.length_append, length_padding, f.length_bytes, List.map_cons, endFrom]
    omega

theorem length_image (pad : ℕ → Byte) (fs : List Field) :
    (image pad fs).length = structSize (fs.map Field.slot) := by
  have hbody := add_length_imageFrom pad 0 fs
  have hle : endFrom 0 (fs.map Field.slot) ≤ structSize (fs.map Field.slot) := le_alignUp _ _
  rw [image, List.length_append, length_padding]
  omega

-- Behind any bytes that bring it to its position, an image reads back member by member.
theorem readFrom_imageFrom (pad : ℕ → Byte) (pre post : List Byte) (fs : List Field) :
    readFrom (pre ++ imageFrom pad pre.length fs ++ post) pre.length (fs.map Field.slot) =
      fs.map Field.bytes := by
  induction fs generalizing pre with
  | nil => rfl
  | cons f fs ih =>
    let offset := alignUp pre.length f.slot.align
    let gap := padding pad pre.length offset
    let rest := imageFrom pad (offset + f.slot.size) fs
    let bytes := pre ++ (gap ++ f.bytes ++ rest) ++ post
    have hle : pre.length ≤ offset := le_alignUp pre.length f.slot.align
    have hgap : (pre ++ gap).length = offset := by
      rw [List.length_append, length_padding]
      omega
    have hhead : (bytes.drop offset).take f.slot.size = f.bytes := by
      have hsplit : bytes = pre ++ gap ++ (f.bytes ++ (rest ++ post)) := by
        simp only [bytes, List.append_assoc]
      rw [hsplit, List.drop_left' hgap, List.take_left' f.length_bytes]
    -- The other members are read behind this one.
    have hend : (pre ++ gap ++ f.bytes).length = offset + f.slot.size := by
      rw [List.length_append, hgap, f.length_bytes]
    have htail : readFrom bytes (offset + f.slot.size) (fs.map Field.slot) = fs.map Field.bytes := by
      have hsplit : bytes = pre ++ gap ++ f.bytes ++ rest ++ post := by
        simp only [bytes, List.append_assoc]
      have hrest := ih (pre ++ gap ++ f.bytes)
      rw [hend] at hrest
      rw [hsplit]
      exact hrest
    show (bytes.drop offset).take f.slot.size ::
      readFrom bytes (offset + f.slot.size) (fs.map Field.slot) = f.bytes :: fs.map Field.bytes
    rw [hhead, htail]

/-- An image reads back whatever its padding holds and whatever bytes follow it. -/
theorem readFrom_image (pad : ℕ → Byte) (fs : List Field) (post : List Byte) :
    readFrom (image pad fs ++ post) 0 (fs.map Field.slot) = fs.map Field.bytes := by
  rw [image, List.append_assoc]
  exact readFrom_imageFrom pad [] _ fs

/-! ## The last member -/

theorem imageFrom_append (pad : ℕ → Byte) (pos : ℕ) (fs gs : List Field) :
    imageFrom pad pos (fs ++ gs) =
      imageFrom pad pos fs ++ imageFrom pad (endFrom pos (fs.map Field.slot)) gs := by
  induction fs generalizing pos with
  | nil => rfl
  | cons f fs ih =>
    simp only [List.cons_append, imageFrom, List.map_cons, endFrom, ih, List.append_assoc]

def headImage (pad : ℕ → Byte) (fs : List Field) (last : Slot) : List Byte :=
  imageFrom pad 0 fs ++
    padding pad (endFrom 0 (fs.map Field.slot)) (alignUp (endFrom 0 (fs.map Field.slot)) last.align)

theorem imageFrom_concat (pad : ℕ → Byte) (fs : List Field) (f : Field) :
    imageFrom pad 0 (fs ++ [f]) = headImage pad fs f.slot ++ f.bytes := by
  rw [imageFrom_append, headImage]
  simp only [imageFrom, List.append_nil, List.append_assoc]

-- Where the last member ends at a multiple of the alignment, no padding follows it.
theorem image_concat (pad : ℕ → Byte) (fs : List Field) (f : Field)
    (hfull : structAlign ((fs ++ [f]).map Field.slot) ∣ endFrom 0 ((fs ++ [f]).map Field.slot)) :
    image pad (fs ++ [f]) = headImage pad fs f.slot ++ f.bytes := by
  have hsize : structSize ((fs ++ [f]).map Field.slot) = endFrom 0 ((fs ++ [f]).map Field.slot) :=
    alignUp_eq_self (structAlign_pos _) hfull
  have hnone : ∀ n, padding pad n n = [] := by
    intro n
    rw [padding, Nat.sub_self]
    rfl
  rw [image, hsize, hnone, List.append_nil, imageFrom_concat]

/-! ## Padding -/

-- The positions before the end of the last member that belong to no member.
def gapsFrom : ℕ → List Slot → List ℕ
  | _, [] => []
  | pos, s :: ss =>
    let offset := alignUp pos s.align
    List.range' pos (offset - pos) ++ gapsFrom (offset + s.size) ss

theorem padding_eq_iff (pad pad' : ℕ → Byte) (start stop : ℕ) :
    padding pad start stop = padding pad' start stop ↔
      ∀ i ∈ List.range' start (stop - start), pad i = pad' i := List.map_inj_left

/-- Two images of the same members differ exactly where their padding does. -/
theorem imageFrom_eq_iff (pad pad' : ℕ → Byte) (pos : ℕ) (fs : List Field) :
    imageFrom pad pos fs = imageFrom pad' pos fs ↔
      ∀ i ∈ gapsFrom pos (fs.map Field.slot), pad i = pad' i := by
  induction fs generalizing pos with
  | nil => exact ⟨fun _ i hi => absurd hi List.not_mem_nil, fun _ => rfl⟩
  | cons f fs ih =>
    have hlen : (padding pad pos (alignUp pos f.slot.align)).length =
        (padding pad' pos (alignUp pos f.slot.align)).length := by
      rw [length_padding, length_padding]
    simp only [imageFrom, List.append_assoc, List.map_cons, gapsFrom, List.forall_mem_append]
    rw [List.append_eq_append_iff_of_size_eq_left hlen, List.append_right_inj, padding_eq_iff, ih]

/-! ## Codecs -/

/-- A struct type with its members, in declaration order. -/
structure StructCodec (α : Type*) where
  slots : List Slot
  fields : α → List Field
  ofChunks : List (List Byte) → α
  slots_fields : ∀ v, (fields v).map Field.slot = slots
  ofChunks_fields : ∀ v, ofChunks ((fields v).map Field.bytes) = v

variable {α τ : Type*}

namespace StructCodec

def size (c : StructCodec α) : ℕ := structSize c.slots

def image (c : StructCodec α) (pad : ℕ → Byte) (v : α) : List Byte := Reasoning.image pad (c.fields v)

def decode (c : StructCodec α) (bytes : List Byte) : α := c.ofChunks (readFrom bytes 0 c.slots)

theorem length_image (c : StructCodec α) (pad : ℕ → Byte) (v : α) :
    (c.image pad v).length = c.size := by
  rw [image, Reasoning.length_image, c.slots_fields]
  rfl

theorem decode_image (c : StructCodec α) (pad : ℕ → Byte) (v : α) (post : List Byte) :
    c.decode (c.image pad v ++ post) = v := by
  rw [decode, image, ← c.slots_fields v, readFrom_image, c.ofChunks_fields]

end StructCodec

-- Copy the first `n` bytes of `src` over those of `dst`.
def memcpy (dst src : List Byte) (n : ℕ) : List Byte := src.take n ++ dst.drop n

theorem StructCodec.decode_memcpy (c : StructCodec α) (pad : ℕ → Byte) (v : α) (dst : List Byte) :
    c.decode (memcpy dst (c.image pad v) c.size) = v := by
  rw [memcpy, ← c.length_image pad v, List.take_length, c.decode_image]

/-- A struct type whose last member, a checksum over the others, ends where the struct ends. -/
structure TrailerCodec (α τ : Type*) extends StructCodec α where
  head : α → List Field
  last : τ → Field
  lastSlot : Slot
  trailer : α → τ
  setTrailer : α → τ → α
  fields_eq : ∀ v, fields v = head v ++ [last (trailer v)]
  slot_last : ∀ t, (last t).slot = lastSlot
  head_setTrailer : ∀ v t, head (setTrailer v t) = head v
  trailer_setTrailer : ∀ v t, trailer (setTrailer v t) = t
  full : structAlign slots ∣ endFrom 0 slots

namespace TrailerCodec

theorem image_eq (c : TrailerCodec α τ) (pad : ℕ → Byte) (v : α) :
    c.image pad v = headImage pad (c.head v) c.lastSlot ++ (c.last (c.trailer v)).bytes := by
  have hslots := c.slots_fields v
  rw [c.fields_eq] at hslots
  rw [StructCodec.image, c.fields_eq, image_concat, c.slot_last]
  rw [hslots]
  exact c.full

theorem take_image (c : TrailerCodec α τ) (pad : ℕ → Byte) (v : α) :
    (c.image pad v).take (c.size - c.lastSlot.size) = headImage pad (c.head v) c.lastSlot := by
  have hlen := c.length_image pad v
  rw [c.image_eq, List.length_append, (c.last _).length_bytes, c.slot_last] at hlen
  rw [c.image_eq]
  apply List.take_left'
  omega

theorem take_image_setTrailer (c : TrailerCodec α τ) (pad : ℕ → Byte) (v : α) (t : τ) :
    (c.image pad (c.setTrailer v t)).take (c.size - c.lastSlot.size) =
      (c.image pad v).take (c.size - c.lastSlot.size) := by
  rw [c.take_image, c.take_image, c.head_setTrailer]

-- The bytes before the checksum give back every other member.
theorem decode_take_append (c : TrailerCodec α τ) (pad : ℕ → Byte) (v : α) (t : τ) :
    c.decode ((c.image pad v).take (c.size - c.lastSlot.size) ++ (c.last t).bytes) =
      c.setTrailer v t := by
  have himage : headImage pad (c.head v) c.lastSlot ++ (c.last t).bytes =
      c.image pad (c.setTrailer v t) := by
    rw [c.image_eq, c.head_setTrailer, c.trailer_setTrailer]
  rw [c.take_image, himage, ← List.append_nil (c.image pad (c.setTrailer v t)), c.decode_image]

theorem setTrailer_eq_of_take_eq (c : TrailerCodec α τ) (pad pad' : ℕ → Byte) (v w : α) (t : τ)
    (h : (c.image pad v).take (c.size - c.lastSlot.size) =
      (c.image pad' w).take (c.size - c.lastSlot.size)) : c.setTrailer v t = c.setTrailer w t := by
  rw [← c.decode_take_append pad v t, h, c.decode_take_append]

-- The bytes before the checksum, for two objects with the same value.
theorem take_image_eq_iff (c : TrailerCodec α τ) (pad pad' : ℕ → Byte) (v : α) :
    (c.image pad v).take (c.size - c.lastSlot.size) =
        (c.image pad' v).take (c.size - c.lastSlot.size) ↔
      ∀ i ∈ gapsFrom 0 c.slots, pad i = pad' i := by
  have himage (pad : ℕ → Byte) : imageFrom pad 0 (c.fields v) =
      headImage pad (c.head v) c.lastSlot ++ (c.last (c.trailer v)).bytes := by
    rw [c.fields_eq, imageFrom_concat, c.slot_last]
  rw [c.take_image, c.take_image, ← c.slots_fields v, ← imageFrom_eq_iff, himage, himage,
    List.append_left_inj]

end TrailerCodec

end Bms.Reasoning
