import Bms.Reasoning.RecordLayout
import Bms.Types.TelemetryTypes

/-!
# Byte images of the telemetry structures

The object representations of `CellMetrics` and `PackMetrics`.  Copying the bytes of a struct copies
all its members, and the bytes before the trailing `crc16` determine every other member and do not
depend on the checksum.
-/

open Bms.Reasoning Bms.Types

namespace Bms.Telemetry

/-! ## Members -/

inductive CellField
  | voltageV
  | temperatureC
  | swellingForceN
  | timestampMs
  | sequenceId
  | status
  | validity
  | isBalancing
  | crc16
deriving DecidableEq, Repr

inductive PackField
  | totalVoltageV
  | packCurrentA
  | deltaVoltageV
  | maxCellTempC
  | minCellTempC
  | stateOfChargePct
  | timestampMs
  | sequenceId
  | activeFaults
  | activeCellCount
  | validity
  | crc16
deriving DecidableEq, Repr

-- The enumerations and masks are stored as their words.

def cellStatusMember : Member CellStatus := Member.uint8.via CellStatus.value CellStatus.mk fun _ => rfl

def validityMember : Member ValidityMask :=
  Member.uint8.via ValidityMask.mask ValidityMask.mk fun _ => rfl

def faultMaskMember : Member FaultMask := Member.uint16.via FaultMask.mask FaultMask.mk fun _ => rfl

abbrev CellField.Value : CellField → Type
  | .voltageV | .temperatureC | .swellingForceN | .timestampMs => BitVec 32
  | .sequenceId | .crc16 => BitVec 16
  | .status => CellStatus
  | .validity => ValidityMask
  | .isBalancing => Bool

def CellField.member : (f : CellField) → Member f.Value
  | .voltageV | .temperatureC | .swellingForceN | .timestampMs => .uint32
  | .sequenceId | .crc16 => .uint16
  | .status => cellStatusMember
  | .validity => validityMember
  | .isBalancing => .bool

abbrev PackField.Value : PackField → Type
  | .totalVoltageV | .packCurrentA | .deltaVoltageV | .maxCellTempC | .minCellTempC
  | .stateOfChargePct | .timestampMs => BitVec 32
  | .sequenceId | .crc16 => BitVec 16
  | .activeFaults => FaultMask
  | .activeCellCount => BitVec 8
  | .validity => ValidityMask

def PackField.member : (f : PackField) → Member f.Value
  | .totalVoltageV | .packCurrentA | .deltaVoltageV | .maxCellTempC | .minCellTempC
  | .stateOfChargePct | .timestampMs => .uint32
  | .sequenceId | .crc16 => .uint16
  | .activeFaults => faultMaskMember
  | .activeCellCount => .uint8
  | .validity => validityMember

/-! ## Structs -/

def cellGet (v : CellMetrics) : (f : CellField) → f.Value
  | .voltageV => v.voltageV
  | .temperatureC => v.temperatureC
  | .swellingForceN => v.swellingForceN
  | .timestampMs => v.timestampMs
  | .sequenceId => v.sequenceId
  | .status => v.status
  | .validity => v.validity
  | .isBalancing => v.isBalancing
  | .crc16 => v.crc16

def cellBuild (get : (f : CellField) → f.Value) : CellMetrics where
  voltageV := get .voltageV
  temperatureC := get .temperatureC
  swellingForceN := get .swellingForceN
  timestampMs := get .timestampMs
  sequenceId := get .sequenceId
  status := get .status
  validity := get .validity
  isBalancing := get .isBalancing
  crc16 := get .crc16

theorem cellGet_cellBuild (get : (f : CellField) → f.Value) : cellGet (cellBuild get) = get := by
  funext f
  cases f <;> rfl

def cellFile : RegisterFile CellMetrics CellField CellField.Value :=
  .ofBuild cellGet cellBuild cellGet_cellBuild fun _ => rfl

def cellLayout : RecordLayout cellFile where
  order := [.voltageV, .temperatureC, .swellingForceN, .timestampMs, .sequenceId, .status, .validity,
    .isBalancing, .crc16]
  nodup := by decide
  mem_order f := by cases f <;> decide
  build := cellBuild
  get_build get f := congrFun (cellGet_cellBuild get) f
  member := CellField.member

/-- `CellMetrics`, with the alignments and sizes of the ABI. -/
def cellCodec : TrailerCodec CellMetrics (BitVec 16) :=
  cellLayout.trailerCodec .crc16 rfl (by decide)

def packGet (v : PackMetrics) : (f : PackField) → f.Value
  | .totalVoltageV => v.totalVoltageV
  | .packCurrentA => v.packCurrentA
  | .deltaVoltageV => v.deltaVoltageV
  | .maxCellTempC => v.maxCellTempC
  | .minCellTempC => v.minCellTempC
  | .stateOfChargePct => v.stateOfChargePct
  | .timestampMs => v.timestampMs
  | .sequenceId => v.sequenceId
  | .activeFaults => v.activeFaults
  | .activeCellCount => v.activeCellCount
  | .validity => v.validity
  | .crc16 => v.crc16

def packBuild (get : (f : PackField) → f.Value) : PackMetrics where
  totalVoltageV := get .totalVoltageV
  packCurrentA := get .packCurrentA
  deltaVoltageV := get .deltaVoltageV
  maxCellTempC := get .maxCellTempC
  minCellTempC := get .minCellTempC
  stateOfChargePct := get .stateOfChargePct
  timestampMs := get .timestampMs
  sequenceId := get .sequenceId
  activeFaults := get .activeFaults
  activeCellCount := get .activeCellCount
  validity := get .validity
  crc16 := get .crc16

theorem packGet_packBuild (get : (f : PackField) → f.Value) : packGet (packBuild get) = get := by
  funext f
  cases f <;> rfl

def packFile : RegisterFile PackMetrics PackField PackField.Value :=
  .ofBuild packGet packBuild packGet_packBuild fun _ => rfl

def packLayout : RecordLayout packFile where
  order := [.totalVoltageV, .packCurrentA, .deltaVoltageV, .maxCellTempC, .minCellTempC,
    .stateOfChargePct, .timestampMs, .sequenceId, .activeFaults, .activeCellCount, .validity, .crc16]
  nodup := by decide
  mem_order f := by cases f <;> decide
  build := packBuild
  get_build get f := congrFun (packGet_packBuild get) f
  member := PackField.member

def packCodec : TrailerCodec PackMetrics (BitVec 16) :=
  packLayout.trailerCodec .crc16 rfl (by decide)

theorem cellCodec_size : cellCodec.size = 24 := by decide

theorem packCodec_size : packCodec.size = 36 := by decide

/-! ## The range of the checksum -/

/-- The bytes that the checksum is documented to cover: all but those of a trailing `uint16_t`. -/
def crcRange {α : Type} (c : StructCodec α) (pad : ℕ → Byte) (v : α) : List Byte :=
  (c.image pad v).take (c.size - 2)

/-- A copy of all bytes is a copy of the value, and the bytes that the checksum covers are those of
the other members; `withCrc` assigns the checksum. -/
structure FaithfulImages {α : Type} (c : StructCodec α) (withCrc : α → BitVec 16 → α) : Prop where
  copied : ∀ v pad old, c.decode (memcpy old (c.image pad v) c.size) = v
  recovered : ∃ recover : List Byte → α, ∀ v pad, recover (crcRange c pad v) = withCrc v 0#16
  separated : ∀ v w pad pad', withCrc v 0#16 ≠ withCrc w 0#16 → crcRange c pad v ≠ crcRange c pad' w
  crcOutside : ∀ v pad crc, crcRange c pad (withCrc v crc) = crcRange c pad v

theorem crcRange_eq {α : Type} (c : TrailerCodec α (BitVec 16)) (hlast : c.lastSlot.size = 2)
    (pad : ℕ → Byte) (v : α) :
    crcRange c.toStructCodec pad v = (c.image pad v).take (c.size - c.lastSlot.size) := by
  rw [crcRange, hlast]

theorem faithfulImages_of_trailer {α : Type} (c : TrailerCodec α (BitVec 16))
    (hlast : c.lastSlot.size = 2) : FaithfulImages c.toStructCodec c.setTrailer where
  copied v pad old := c.decode_memcpy pad v old
  recovered := by
    refine ⟨fun bytes => c.decode (bytes ++ (c.last 0#16).bytes), fun v pad => ?_⟩
    rw [crcRange_eq c hlast]
    exact c.decode_take_append pad v 0#16
  separated v w pad pad' hne := by
    intro h
    rw [crcRange_eq c hlast, crcRange_eq c hlast] at h
    exact hne (c.setTrailer_eq_of_take_eq pad pad' v w 0#16 h)
  crcOutside v pad crc := by
    rw [crcRange_eq c hlast, crcRange_eq c hlast]
    exact c.take_image_setTrailer pad v crc

/-- **The byte images of the telemetry structs are faithful and their checksum range is exact.** -/
theorem telemetry_faithfulImages :
    FaithfulImages cellCodec.toStructCodec (fun v crc => { v with crc16 := crc }) ∧
      FaithfulImages packCodec.toStructCodec (fun v crc => { v with crc16 := crc }) :=
  ⟨faithfulImages_of_trailer cellCodec rfl, faithfulImages_of_trailer packCodec rfl⟩

end Bms.Telemetry
