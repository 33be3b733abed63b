import Bms.Reasoning.RegisterFile
import Bms.Reasoning.TornCopies

/-!
# Layout of records

A record with named fields, each stored as the bytes of a member type, is a struct.  Its members are
scalars or arrays of scalars.  Two objects have the same bytes when their fields and their padding
agree, and an interrupted copy leaves every field cut where the copy ends.
-/

namespace Bms.Reasoning

/-! ## Member types -/

/-- The bytes of the values of a type, and how they are read back. -/
structure Member (α : Type*) where
  slot : Slot
  bytes : α → List Byte
  read : List Byte → α
  length_bytes : ∀ x, (bytes x).length = slot.size
  read_bytes : ∀ x, read (bytes x) = x

namespace Member

variable {α : Type*}

def field (m : Member α) (x : α) : Field := ⟨m.slot, m.bytes x, m.length_bytes x⟩

def word (w n : ℕ) (h : w ≤ 8 * n) : Member (BitVec w) where
  slot := ⟨n, n⟩
  bytes := leBytes n
  read := leWord w
  length_bytes := length_leBytes n
  read_bytes := leWord_leBytes h

def uint8 : Member (BitVec 8) := word 8 1 (by decide)
def uint16 : Member (BitVec 16) := word 16 2 (by decide)
def uint32 : Member (BitVec 32) := word 32 4 (by decide)

-- Values that are stored as others, as an enumeration is.
def via {β : Type*} (m : Member β) (encode : α → β) (decode : β → α)
    (h : ∀ x, decode (encode x) = x) : Member α where
  slot := m.slot
  bytes x := m.bytes (encode x)
  read bytes := decode (m.read bytes)
  length_bytes x := m.length_bytes (encode x)
  read_bytes x := by rw [m.read_bytes, h]

def bool : Member Bool :=
  uint8.via (fun b => if b then 1#8 else 0#8) (fun x => x != 0#8) (by decide)

theorem length_flatMap_bytes (m : Member α) (xs : List α) :
    (xs.flatMap m.bytes).length = xs.length * m.slot.size := by
  induction xs with
  | nil => simp
  | cons x xs ih =>
    rw [List.flatMap_cons, List.length_append, m.length_bytes, ih, List.length_cons, Nat.succ_mul]
    omega

-- The bytes of an array at the offset of one element are those of the element.
theorem take_drop_flatMap_bytes (m : Member α) (xs : List α) {i : ℕ} (hi : i < xs.length) :
    ((xs.flatMap m.bytes).drop (i * m.slot.size)).take m.slot.size = m.bytes xs[i] := by
  induction xs generalizing i with
  | nil => exact absurd hi (Nat.not_lt_zero i)
  | cons x xs ih =>
    rw [List.flatMap_cons]
    cases i with
    | zero =>
      rw [Nat.zero_mul, List.drop_zero, List.take_left' (m.length_bytes x)]
      rfl
    | succ i =>
      have hi' : i < xs.length := Nat.lt_of_succ_lt_succ hi
      have hpast : (i + 1) * m.slot.size = (m.bytes x).length + i * m.slot.size := by
        rw [m.length_bytes, Nat.succ_mul, Nat.add_comm]
      rw [hpast, List.drop_append, List.drop_eq_nil_of_le (by omega), List.nil_append,
        Nat.add_sub_cancel_left, ih hi']
      rfl

def array (m : Member α) (n : ℕ) : Member (Vector α n) where
  slot := ⟨n * m.slot.size, m.slot.align⟩
  bytes xs := xs.toList.flatMap m.bytes
  read bytes := Vector.ofFn fun i => m.read ((bytes.drop (i * m.slot.size)).take m.slot.size)
  length_bytes xs := by rw [length_flatMap_bytes, Vector.length_toList]
  read_bytes xs := by
    apply Vector.ext
    intro i hi
    have hlist : i < xs.toList.length := by rwa [Vector.length_toList]
    rw [Vector.getElem_ofFn, m.take_drop_flatMap_bytes xs.toList hlist, m.read_bytes,
      Vector.getElem_toList]

end Member

/-! ## Equal bytes -/

/-- The positions that belong to no member, tail padding included. -/
def paddingPositions (ss : List Slot) : List ℕ :=
  gapsFrom 0 ss ++ List.range' (endFrom 0 ss) (structSize ss - endFrom 0 ss)

theorem length_imageFrom_pad (pad pad' : ℕ → Byte) (fs : List Field) :
    (imageFrom pad 0 fs).length = (imageFrom pad' 0 fs).length := by
  have h := add_length_imageFrom pad 0 fs
  have h' := add_length_imageFrom pad' 0 fs
  omega

/-- Objects have the same bytes exactly when they have the same value and the same padding. -/
theorem StructCodec.image_eq_iff {α : Type*} (c : StructCodec α) (pad pad' : ℕ → Byte) (v w : α) :
    c.image pad v = c.image pad' w ↔ v = w ∧ ∀ i ∈ paddingPositions c.slots, pad i = pad' i := by
  have hsame : c.image pad v = c.image pad' v ↔
      ∀ i ∈ paddingPositions c.slots, pad i = pad' i := by
    unfold StructCodec.image Reasoning.image paddingPositions
    rw [List.append_eq_append_iff_of_size_eq_left (length_imageFrom_pad pad pad' _),
      imageFrom_eq_iff, padding_eq_iff, List.forall_mem_append, c.slots_fields]
  apply Iff.intro
  · intro h
    have hvalue : v = w := by
      rw [← c.decode_image pad v [], h, c.decode_image]
    subst hvalue
    exact ⟨rfl, hsame.mp h⟩
  · intro h
    have ⟨hvalue, hpad⟩ := h
    subst hvalue
    exact hsame.mpr hpad

/-! ## Records -/

variable {σ ι : Type*} {β : ι → Type*}

/-- The fields of a record in declaration order, with their member types. -/
structure RecordLayout (rf : RegisterFile σ ι β) where
  order : List ι
  nodup : order.Nodup
  mem_order : ∀ i, i ∈ order
  build : ((i : ι) → β i) → σ
  get_build : ∀ v i, rf.get (build v) i = v i
  member : (i : ι) → Member (β i)

namespace RecordLayout

variable [DecidableEq ι] {rf : RegisterFile σ ι β} (layout : RecordLayout rf)

def slots : List Slot := layout.order.map fun i => (layout.member i).slot

theorem getD_map_idxOf {γ : Type*} (f : ι → γ) (d : γ) (i : ι) :
    (layout.order.map f).getD (layout.order.idxOf i) d = f i := by
  have hlt : layout.order.idxOf i < layout.order.length :=
    List.idxOf_lt_length_iff.mpr (layout.mem_order i)
  rw [List.getD_eq_getElem _ _ (by rwa [List.length_map]), List.getElem_map,
    List.getElem_idxOf hlt]

omit [DecidableEq ι] in
theorem build_get (s : σ) : layout.build (rf.get s) = s := by
  apply rf.ext
  intro i
  rw [layout.get_build]

/-- The struct of the record. -/
def codec : StructCodec σ where
  slots := layout.slots
  fields s := layout.order.map fun i => (layout.member i).field (rf.get s i)
  ofChunks chunks := layout.build fun i => (layout.member i).read (chunks.getD (layout.order.idxOf i) [])
  slots_fields s := by
    rw [List.map_map]
    rfl
  ofChunks_fields s := by
    have hchunks (i : ι) : (layout.member i).read
        (((layout.order.map fun i => (layout.member i).field (rf.get s i)).map Field.bytes).getD
          (layout.order.idxOf i) []) = rf.get s i := by
      rw [List.map_map, layout.getD_map_idxOf]
      exact (layout.member i).read_bytes _
    simp only [hchunks]
    exact layout.build_get s

/-- The struct of a record whose last field is a checksum over the others. -/
def trailerCodec (last : ι) (horder : layout.order = layout.order.dropLast ++ [last])
    (hfull : structAlign layout.slots ∣ endFrom 0 layout.slots) : TrailerCodec σ (β last) where
  toStructCodec := layout.codec
  head s := layout.order.dropLast.map fun i => (layout.member i).field (rf.get s i)
  last t := (layout.member last).field t
  lastSlot := (layout.member last).slot
  trailer s := rf.get s last
  setTrailer s t := rf.set s last t
  fields_eq s := by
    show layout.order.map (fun i => (layout.member i).field (rf.get s i)) = _
    rw [horder, List.map_append, List.dropLast_concat]
    rfl
  slot_last _ := rfl
  head_setTrailer s t := by
    have hnodup := layout.nodup
    rw [horder] at hnodup
    apply List.map_congr_left
    intro i hi
    have hne : i ≠ last := fun h =>
      List.disjoint_of_nodup_append hnodup (h ▸ hi) (List.mem_singleton_self last)
    rw [rf.get_set_of_ne _ _ _ _ hne]
  trailer_setTrailer s t := rf.get_set_self s last t
  full := hfull

/-! ## Interrupted copies -/

-- The offset of each member.
def offsetsFrom : ℕ → List Slot → List ℕ
  | _, [] => []
  | pos, s :: ss => alignUp pos s.align :: offsetsFrom (alignUp pos s.align + s.size) ss

def offset (i : ι) : ℕ := (offsetsFrom 0 layout.slots).getD (layout.order.idxOf i) 0

theorem getD_tornChunks (n pos k : ℕ) (fs gs : List Field) (hlen : fs.length = gs.length) :
    (tornChunks n pos (fs.map Field.slot) (fs.map Field.bytes) (gs.map Field.bytes)).getD k [] =
      memcpy ((fs.map Field.bytes).getD k []) ((gs.map Field.bytes).getD k [])
        (n - (offsetsFrom pos (fs.map Field.slot)).getD k 0) := by
  induction fs generalizing pos k gs with
  | nil =>
    cases gs with
    | nil => simp [tornChunks, memcpy]
    | cons g gs => cases hlen
  | cons f fs ih =>
    cases gs with
    | nil => cases hlen
    | cons g gs =>
      cases k with
      | zero => rfl
      | succ k => exact ih _ k gs (Nat.succ.inj hlen)

/-- After an interrupted copy every field holds its bytes cut where the copy ends. -/
theorem get_decode_torn (pad pad' : ℕ → Byte) (old new : σ) (n : ℕ) (i : ι) :
    rf.get (layout.codec.decode
        (memcpy (layout.codec.image pad old) (layout.codec.image pad' new) n)) i =
      (layout.member i).read (memcpy ((layout.member i).bytes (rf.get old i))
        ((layout.member i).bytes (rf.get new i)) (n - layout.offset i)) := by
  have hbytes (s : σ) : ((layout.codec.fields s).map Field.bytes).getD (layout.order.idxOf i) [] =
      (layout.member i).bytes (rf.get s i) := by
    show ((layout.order.map fun i => (layout.member i).field (rf.get s i)).map Field.bytes).getD
      _ _ = _
    rw [List.map_map, layout.getD_map_idxOf]
    rfl
  have hlen : (layout.codec.fields old).length = (layout.codec.fields new).length := by
    show (layout.order.map _).length = (layout.order.map _).length
    rw [List.length_map, List.length_map]
  rw [layout.codec.decode_torn]
  show rf.get (layout.build fun i => (layout.member i).read (List.getD _ (layout.order.idxOf i) [])) i
    = _
  rw [layout.get_build, ← layout.codec.slots_fields old, getD_tornChunks _ _ _ _ _ hlen, hbytes, hbytes,
    layout.codec.slots_fields]
  rfl

-- Fields behind the cut are old, fields before it are new.
theorem get_decode_torn_of_le (pad pad' : ℕ → Byte) (old new : σ) (n : ℕ) (i : ι) :
    (n ≤ layout.offset i → rf.get (layout.codec.decode
        (memcpy (layout.codec.image pad old) (layout.codec.image pad' new) n)) i = rf.get old i) ∧
    (layout.offset i + (layout.member i).slot.size ≤ n → rf.get (layout.codec.decode
        (memcpy (layout.codec.image pad old) (layout.codec.image pad' new) n)) i =
          rf.get new i) := by
  rw [get_decode_torn]
  apply And.intro
  · intro hn
    rw [Nat.sub_eq_zero_of_le hn]
    exact (layout.member i).read_bytes _
  · intro hn
    have hold := (layout.member i).length_bytes (rf.get old i)
    have hnew := (layout.member i).length_bytes (rf.get new i)
    rw [memcpy_of_length_le (by omega) (by omega), (layout.member i).read_bytes]

-- A field of one byte is old or new.
theorem get_decode_torn_byte (pad pad' : ℕ → Byte) (old new : σ) (n : ℕ) (i : ι)
    (h : (layout.member i).slot.size = 1) :
    rf.get (layout.codec.decode
        (memcpy (layout.codec.image pad old) (layout.codec.image pad' new) n)) i =
      if n ≤ layout.offset i then rf.get old i else rf.get new i := by
  have hcut := layout.get_decode_torn_of_le pad pad' old new n i
  split
  · rename_i hn
    exact hcut.1 hn
  · exact hcut.2 (by omega)

end RecordLayout

end Bms.Reasoning
