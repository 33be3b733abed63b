import Bms.Reasoning.TornCopies
import Bms.Telemetry.ByteImages

/-!
# Interrupted copies of the telemetry structures

The telemetry structs are copied between tasks by `memcpy`.  A reader that preempts the copy sees new
members up to the cut and old ones from it on, and the checksum, which is the last member, is still
the old one until all data are new.  So the check of a cut copy passes only where the checksum fails
to tell its bytes from the old ones.
-/

open Bms.Reasoning Bms.Types

namespace Bms.Telemetry

/-! ## Members -/

-- The cell left by a copy of the first `n` bytes of `new` over `old`.
def tornCell (old new : CellMetrics) (n : ℕ) : CellMetrics where
  voltageV := tornWord old.voltageV new.voltageV n
  temperatureC := tornWord old.temperatureC new.temperatureC (n - 4)
  swellingForceN := tornWord old.swellingForceN new.swellingForceN (n - 8)
  timestampMs := tornWord old.timestampMs new.timestampMs (n - 12)
  sequenceId := tornWord old.sequenceId new.sequenceId (n - 16)
  status := if n ≤ 18 then old.status else new.status
  validity := if n ≤ 19 then old.validity else new.validity
  isBalancing := if n ≤ 20 then old.isBalancing else new.isBalancing
  crc16 := tornWord old.crc16 new.crc16 (n - 22)

def tornPack (old new : PackMetrics) (n : ℕ) : PackMetrics where
  totalVoltageV := tornWord old.totalVoltageV new.totalVoltageV n
  packCurrentA := tornWord old.packCurrentA new.packCurrentA (n - 4)
  deltaVoltageV := tornWord old.deltaVoltageV new.deltaVoltageV (n - 8)
  maxCellTempC := tornWord old.maxCellTempC new.maxCellTempC (n - 12)
  minCellTempC := tornWord old.minCellTempC new.minCellTempC (n - 16)
  stateOfChargePct := tornWord old.stateOfChargePct new.stateOfChargePct (n - 20)
  timestampMs := tornWord old.timestampMs new.timestampMs (n - 24)
  sequenceId := tornWord old.sequenceId new.sequenceId (n - 28)
  activeFaults := ⟨tornWord old.activeFaults.mask new.activeFaults.mask (n - 30)⟩
  activeCellCount := if n ≤ 32 then old.activeCellCount else new.activeCellCount
  validity := if n ≤ 33 then old.validity else new.validity
  crc16 := tornWord old.crc16 new.crc16 (n - 34)

theorem decode_tornCell (pad pad' : ℕ → Byte) (old new : CellMetrics) (n : ℕ) :
    cellCodec.decode (memcpy (cellCodec.image pad old) (cellCodec.image pad' new) n) =
      tornCell old new n := by
  apply cellFile.ext
  intro f
  cases f with
  | voltageV | temperatureC | swellingForceN | timestampMs | sequenceId | crc16 =>
    exact (cellLayout.get_decode_torn pad pad' old new n _).trans (leWord_memcpy (by decide) _ _ _)
  | status | validity | isBalancing =>
    exact cellLayout.get_decode_torn_byte pad pad' old new n _ rfl

theorem decode_tornPack (pad pad' : ℕ → Byte) (old new : PackMetrics) (n : ℕ) :
    packCodec.decode (memcpy (packCodec.image pad old) (packCodec.image pad' new) n) =
      tornPack old new n := by
  apply packFile.ext
  intro f
  cases f with
  | totalVoltageV | packCurrentA | deltaVoltageV | maxCellTempC | minCellTempC | stateOfChargePct
  | timestampMs | sequenceId | crc16 =>
    exact (packLayout.get_decode_torn pad pad' old new n _).trans (leWord_memcpy (by decide) _ _ _)
  | activeFaults =>
    exact (packLayout.get_decode_torn pad pad' old new n .activeFaults).trans
      (congrArg FaultMask.mk (leWord_memcpy (by decide) _ _ _))
  | activeCellCount | validity =>
    exact packLayout.get_decode_torn_byte pad pad' old new n _ rfl

/-- **What an interrupted copy leaves.**  Each member is new up to the cut and old from it on, counted
in bytes from the offset of the member, whatever the padding holds. -/
theorem telemetry_tornCopies (pad pad' : ℕ → Byte) (n : ℕ) :
    (∀ old new : CellMetrics,
      cellCodec.decode (memcpy (cellCodec.image pad old) (cellCodec.image pad' new) n) =
        tornCell old new n) ∧
    ∀ old new : PackMetrics,
      packCodec.decode (memcpy (packCodec.image pad old) (packCodec.image pad' new) n) =
        tornPack old new n :=
  ⟨fun old new => decode_tornCell pad pad' old new n,
    fun old new => decode_tornPack pad pad' old new n⟩

/-! ## The check of a torn copy -/

/-- The integrity check of a reader: the last member is the checksum of the bytes before it. -/
def Checks {α : Type} (c : StructCodec α) (crc16 : α → BitVec 16)
    (checksum : List Byte → BitVec 16) (bytes : List Byte) : Prop :=
  crc16 (c.decode bytes) = checksum (bytes.take (c.size - 2))

/-- When the check of a copy cut after `n` bytes passes, both objects having passed it. -/
structure TornChecks {α : Type} (c : StructCodec α) (crc16 : α → BitVec 16)
    (checksum : List Byte → BitVec 16) (pad pad' : ℕ → Byte) (old new : α) (n : ℕ) : Prop where
  -- The checksum is still the old one.
  data : n ≤ c.size - 2 →
    (Checks c crc16 checksum (memcpy (c.image pad old) (c.image pad' new) n) ↔
      checksum (memcpy (crcRange c pad old) (crcRange c pad' new) n) = checksum (crcRange c pad old))
  -- One byte of the checksum is new.
  half : n = c.size - 1 →
    (Checks c crc16 checksum (memcpy (c.image pad old) (c.image pad' new) n) ↔
      crc16 old >>> 8 = crc16 new >>> 8)
  whole : c.size ≤ n → Checks c crc16 checksum (memcpy (c.image pad old) (c.image pad' new) n)

section Check

variable {α : Type} {c : StructCodec α} {crc16 : α → BitVec 16}

theorem checks_image_iff (checksum : List Byte → BitVec 16) (pad : ℕ → Byte) (v : α) :
    Checks c crc16 checksum (c.image pad v) ↔ crc16 v = checksum (crcRange c pad v) := by
  have hdecode := c.decode_image pad v []
  rw [List.append_nil] at hdecode
  unfold Checks crcRange
  rw [hdecode]

theorem checks_torn_iff (checksum : List Byte → BitVec 16)
    (htorn : ∀ pad pad' old new n,
      crc16 (c.decode (memcpy (c.image pad old) (c.image pad' new) n)) =
        tornWord (crc16 old) (crc16 new) (n - (c.size - 2)))
    (pad pad' : ℕ → Byte) (old new : α) (n : ℕ) :
    Checks c crc16 checksum (memcpy (c.image pad old) (c.image pad' new) n) ↔
      tornWord (crc16 old) (crc16 new) (n - (c.size - 2)) =
        checksum (memcpy (crcRange c pad old) (crcRange c pad' new) n) := by
  have hlen : (c.image pad old).length = (c.image pad' new).length := by
    rw [c.length_image, c.length_image]
  unfold Checks crcRange
  rw [htorn, take_memcpy hlen]

theorem tornChecks_of_torn (checksum : List Byte → BitVec 16) (hsize : 2 ≤ c.size)
    (htorn : ∀ pad pad' old new n,
      crc16 (c.decode (memcpy (c.image pad old) (c.image pad' new) n)) =
        tornWord (crc16 old) (crc16 new) (n - (c.size - 2)))
    {pad pad' : ℕ → Byte} {old new : α} (hold : Checks c crc16 checksum (c.image pad old))
    (hnew : Checks c crc16 checksum (c.image pad' new)) (n : ℕ) :
    TornChecks c crc16 checksum pad pad' old new n := by
  rw [checks_image_iff] at hold hnew
  have hiff := checks_torn_iff checksum htorn pad pad' old new n
  have hlen : (crcRange c pad old).length = (crcRange c pad' new).length := by
    unfold crcRange
    rw [List.length_take, List.length_take, c.length_image, c.length_image]
  have hlenNew : (crcRange c pad' new).length = c.size - 2 := by
    unfold crcRange
    rw [List.length_take, c.length_image]
    omega
  refine ⟨?_, ?_, ?_⟩
  · intro hn
    rw [hiff, Nat.sub_eq_zero_of_le hn, tornWord_zero, hold, eq_comm]
  · intro hn
    have hpart : n - (c.size - 2) = 1 := by omega
    rw [hiff, memcpy_of_length_le hlen (by omega), ← hnew, hpart, tornWord_eq_new_iff]
  · intro hn
    rw [hiff, memcpy_of_length_le hlen (by omega), ← hnew]
    exact tornWord_of_le _ _ (by omega)

end Check

/-- **When the check sees that a copy was interrupted.**  Let the old and the new object both pass the
check.  A copy cut at or before `crc16` passes exactly when the checksum of its bytes collides with
that of the old ones; a copy cut inside `crc16` passes exactly when the two checksums share their
upper byte; later cuts leave the new object. -/
theorem telemetry_tornChecks (checksum : List Byte → BitVec 16) (pad pad' : ℕ → Byte) (n : ℕ) :
    (∀ old new : CellMetrics,
      Checks cellCodec.toStructCodec CellMetrics.crc16 checksum (cellCodec.image pad old) →
      Checks cellCodec.toStructCodec CellMetrics.crc16 checksum (cellCodec.image pad' new) →
      TornChecks cellCodec.toStructCodec CellMetrics.crc16 checksum pad pad' old new n) ∧
    ∀ old new : PackMetrics,
      Checks packCodec.toStructCodec PackMetrics.crc16 checksum (packCodec.image pad old) →
      Checks packCodec.toStructCodec PackMetrics.crc16 checksum (packCodec.image pad' new) →
      TornChecks packCodec.toStructCodec PackMetrics.crc16 checksum pad pad' old new n := by
  apply And.intro
  · intro old new hold hnew
    refine tornChecks_of_torn checksum (by decide) ?_ hold hnew n
    intro pad pad' old new n
    rw [decode_tornCell]
    rfl
  · intro old new hold hnew
    refine tornChecks_of_torn checksum (by decide) ?_ hold hnew n
    intro pad pad' old new n
    rw [decode_tornPack]
    rfl

-- The source names CRC-16-CCITT without its parameters.  This is one usual variant, chosen for the
-- test below: polynomial 0x1021, initial value 0xFFFF, high bit first.
def crc16Shift (crc : BitVec 16) : BitVec 16 :=
  if crc.msb then (crc <<< 1) ^^^ 0x1021#16 else crc <<< 1

def crc16Byte (crc : BitVec 16) (byte : Byte) : BitVec 16 :=
  crc16Shift^[8] (crc ^^^ ((byte.setWidth 16 : BitVec 16) <<< 8))

def crc16Ccitt (bytes : List Byte) : BitVec 16 := bytes.foldl crc16Byte 0xFFFF#16

-- The check value of the algorithm, for the digits 1 to 9.
example : crc16Ccitt ((List.range 9).map fun i => 0x31#8 + BitVec.ofNat 8 i) = 0x29B1#16 := by
  decide +kernel

-- A cell on zeroed memory with its checksum.
def sealCell (v : CellMetrics) : CellMetrics :=
  { v with crc16 := crc16Ccitt (crcRange cellCodec.toStructCodec (fun _ => 0#8) v) }

-- A copy cut after the new voltage and half of the new temperature is refused.
theorem telemetry_tornChecks_refused :
    let old := sealCell { voltageV := 0x40600000#32, temperatureC := 0x41C80000#32 }
    let new := sealCell { voltageV := 0x40866666#32, temperatureC := 0x42700000#32 }
    let image := cellCodec.image fun _ => 0#8
    ¬ Checks cellCodec.toStructCodec CellMetrics.crc16 crc16Ccitt
      (memcpy (image old) (image new) 7) := by
  intro old new image
  have h := (telemetry_tornChecks crc16Ccitt (fun _ => 0#8) (fun _ => 0#8) 7).1 old new
    (by unfold Checks; decide +kernel) (by unfold Checks; decide +kernel)
  rw [h.data (by decide)]
  decide +kernel

end Bms.Telemetry
