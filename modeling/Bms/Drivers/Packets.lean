import Bms.Reasoning.WriteOrders
import Bms.Types.DriverPackets

/-!
# Driver packets between tasks

A driver fills a packet setter by setter, and the setter of an array copies its elements one by one; a
copy of several at once is a run of such stores.  The packet is copied between tasks as bytes.  What a
reader finds is decided by the last store to each scalar, and, where tasks or the copy are cut off, it
is a mixture of old and new scalars, or of the bytes of one.
-/

open Bms.Reasoning Bms.Types

namespace Bms.Drivers

/-! ## Setters -/

-- The scalars of a member: itself, or the elements of an array.
abbrev Index (p : DriverPacket) (f : p.data.Field) := Fin (p.data.type f).length

abbrev scalars (p : DriverPacket) (f : p.data.Field) := (p.data.type f).scalars

-- A call of the setter of a member, with the order in which it copies the elements.
abbrev SetterCall (p : DriverPacket) := ElementwiseWrite p.data.Value (Index p)

-- Elements copied by their index.
def SetterCall.ofValue {p : DriverPacket} (f : p.data.Field) (v : p.data.Value f) : SetterCall p :=
  ⟨f, v, List.finRange _, List.nodup_finRange _, List.mem_finRange⟩

abbrev ScalarStore (p : DriverPacket) :=
  Sigma fun s : Sigma (Index p) => (p.data.type s.1).base.Value

section

variable {p : DriverPacket}

-- Setter after setter.
def setAll (d : p.data.Object) (calls : List (SetterCall p)) : p.data.Object :=
  calls.foldl (fun d call => p.data.set d call.field call.value) d

-- The value of the last call of the setter of a member.
def lastSet (calls : List (SetterCall p)) (f : p.data.Field) : Option (p.data.Value f) :=
  lastWrite f (calls.map ElementwiseWrite.write)

def storesOf (calls : List (SetterCall p)) : List (ScalarStore p) :=
  calls.flatMap (ElementwiseWrite.stores (scalars p))

-- The other scalars of the member, and the other members, are kept.
def storeScalar (p : DriverPacket) : p.data.Object → ScalarStore p → p.data.Object :=
  (p.data.file.nested (scalars p)).write

theorem setAll_eq_run (d : p.data.Object) (calls : List (SetterCall p)) :
    setAll d calls = p.data.file.run (calls.map ElementwiseWrite.write) d := by
  unfold setAll RegisterFile.run
  rw [List.foldl_map]
  rfl

theorem get_setAll (d : p.data.Object) (calls : List (SetterCall p)) (f : p.data.Field) :
    (setAll d calls).get f = (lastSet calls f).getD (d.get f) := by
  rw [setAll_eq_run]
  exact p.data.file.get_run _ d f

theorem foldl_storesOf (d : p.data.Object) (calls : List (SetterCall p)) :
    (storesOf calls).foldl (storeScalar p) d = setAll d calls := by
  rw [setAll_eq_run]
  exact ElementwiseWrite.run_stores (scalars p) p.data.file calls d

theorem lastWrite_storesOf (calls : List (SetterCall p)) (f : p.data.Field) (i : Index p f) :
    lastWrite (⟨f, i⟩ : Sigma (Index p)) (storesOf calls) =
      (lastSet calls f).map fun v => (scalars p f).get v i :=
  ElementwiseWrite.lastWrite_flatMap_stores (scalars p) calls f i

end

-- All setters in some order, each with some order of the elements.
abbrev FillOrder (p : DriverPacket) := NestedOrder p.data.Field (Index p)

def fill {p : DriverPacket} (order : FillOrder p) (d : p.data.Object) : List (SetterCall p) :=
  order.writes d.get

def imageOf {p : DriverPacket} (pad : ℕ → Byte) (d : p.data.Object) : List Byte :=
  p.data.layout.codec.image pad d

def ofImage (p : DriverPacket) (bytes : List Byte) : p.data.Object := p.data.layout.codec.decode bytes

-- The sizes of the classes, in bytes.
def packetSize : DriverPacket → ℕ
  | .bypassMosfetCommanded => 20
  | .bypassMosfetActual => 36
  | .contactorCommanded | .contactorActual => 8
  | .currentSensorRaw => 12
  | .currentSensorProcessed => 8
  | .ledsCommanded => 96
  | .pyroFuseCommanded => 8
  | .pyroFuseActual => 12
  | .swellingRaw => 40
  | .swellingProcessed => 80
  | .temperatureRaw => 24
  | .temperatureProcessed => 44
  | .voltageAdcRaw => 40
  | .voltageProcessed => 44

-- The offsets of the bytes that belong to no member.
def packetPadding : DriverPacket → List ℕ
  | .contactorCommanded => [1, 2, 3]
  | .contactorActual | .pyroFuseCommanded => [2, 3]
  | .currentSensorRaw => [2, 3, 9, 10, 11]
  | .pyroFuseActual => [2, 3, 9, 10, 11]
  | .swellingRaw | .voltageAdcRaw => [37, 38, 39]
  | .temperatureRaw => [21, 22, 23]
  | .voltageProcessed => [38, 39]
  | .bypassMosfetCommanded | .bypassMosfetActual | .currentSensorProcessed | .ledsCommanded
  | .swellingProcessed | .temperatureProcessed => []

theorem codec_size (p : DriverPacket) : p.data.layout.codec.size = packetSize p := by
  cases p <;> decide

theorem paddingPositions_slots (p : DriverPacket) :
    paddingPositions p.data.layout.slots = packetPadding p := by
  cases p <;> decide

/-- **Packets as bytes.**  A packet has the size and the padding of its class; two objects have the
same bytes exactly when all getters agree and so does the padding. -/
theorem packets_sameBytes (p : DriverPacket) (pad pad' : ℕ → Byte) (d d' : p.data.Object) :
    (imageOf pad d).length = packetSize p ∧
    (imageOf pad d = imageOf pad' d' ↔
      (∀ f, d.get f = d'.get f) ∧ ∀ i ∈ packetPadding p, pad i = pad' i) := by
  have hvalue : d = d' ↔ ∀ f, d.get f = d'.get f := by
    apply Iff.intro
    · intro h f
      rw [h]
    · exact p.data.file.ext d d'
  apply And.intro
  · rw [imageOf, StructCodec.length_image, codec_size]
  · rw [imageOf, imageOf, StructCodec.image_eq_iff, hvalue, ← paddingPositions_slots]
    rfl

/-- **Copies of packets.**  A copy of all bytes is a copy of all members.  A copy cut after `n` bytes
leaves the members behind the cut old and those before it new, and mixes the bytes of the member in
which the cut lies, whatever the padding holds. -/
theorem packets_copied (p : DriverPacket) (pad pad' : ℕ → Byte) (old new : p.data.Object) (n : ℕ) :
    ofImage p (memcpy (imageOf pad old) (imageOf pad' new) (packetSize p)) = new ∧
    ∀ f, let copy := ofImage p (memcpy (imageOf pad old) (imageOf pad' new) n)
      let member := p.data.layout.member f
      (n ≤ p.data.layout.offset f → copy.get f = old.get f) ∧
      (p.data.layout.offset f + member.slot.size ≤ n → copy.get f = new.get f) ∧
      copy.get f = member.read (memcpy (member.bytes (old.get f)) (member.bytes (new.get f))
        (n - p.data.layout.offset f)) := by
  apply And.intro
  · rw [← codec_size]
    exact p.data.layout.codec.decode_memcpy pad' new _
  · intro f copy member
    have hcut := p.data.layout.get_decode_torn_of_le pad pad' old new n f
    exact ⟨hcut.1, hcut.2, p.data.layout.get_decode_torn pad pad' old new n f⟩

end Bms.Drivers
