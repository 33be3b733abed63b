import Bms.Types.FaultMasks

/-!
# Telemetry structures

The telemetry structs of `telemetry_types.hpp` with the flag types of their members.  A `float` is
its 32-bit pattern; `0.0f` is the pattern of zeros.  A scoped enumeration over `uint8_t` holds any
8-bit value.
-/

namespace Bms.Types

structure MetricValidity where
  value : BitVec 8
deriving DecidableEq, Repr

namespace MetricValidity

def valid : MetricValidity := ⟨1#8 <<< 0⟩
def stale : MetricValidity := ⟨1#8 <<< 1⟩
def faultComm : MetricValidity := ⟨1#8 <<< 2⟩
def calibrating : MetricValidity := ⟨1#8 <<< 3⟩

end MetricValidity

structure ValidityMask where
  mask : BitVec 8 := MetricValidity.valid.value
deriving DecidableEq, Repr

namespace ValidityMask

def ofRaw (raw : BitVec 8) : ValidityMask := ⟨raw⟩

def ofFlag (v : MetricValidity) : ValidityMask := ⟨v.value⟩

def has (m : ValidityMask) (v : MetricValidity) : Bool := promote m.mask &&& promote v.value != 0#32

def set (m : ValidityMask) (v : MetricValidity) : ValidityMask :=
  ⟨promoted (· ||| ·) m.mask v.value⟩

def clear (m : ValidityMask) (v : MetricValidity) : ValidityMask :=
  ⟨promoted (· &&& ·) m.mask (castTo 8 (~~~promote v.value))⟩

def reset (_ : ValidityMask) (v : MetricValidity := .valid) : ValidityMask := ⟨v.value⟩

def isValid (m : ValidityMask) : Bool := m.has .valid && !m.has .stale && !m.has .faultComm

def rawValue (m : ValidityMask) : BitVec 8 := m.mask

def orFlag (m : ValidityMask) (rhs : MetricValidity) : ValidityMask :=
  ofRaw (promoted (· ||| ·) m.mask rhs.value)

def andFlag (m : ValidityMask) (rhs : MetricValidity) : ValidityMask :=
  ofRaw (promoted (· &&& ·) m.mask rhs.value)

def compl (m : ValidityMask) : ValidityMask := ofRaw (castTo 8 (~~~promote m.mask))

def orAssign (m : ValidityMask) (rhs : MetricValidity) : ValidityMask :=
  ⟨promoted (· ||| ·) m.mask rhs.value⟩

def andAssign (m : ValidityMask) (rhs : MetricValidity) : ValidityMask :=
  ⟨promoted (· &&& ·) m.mask rhs.value⟩

def opEq (m rhs : ValidityMask) : Bool := promote m.mask == promote rhs.mask

def opNe (m rhs : ValidityMask) : Bool := promote m.mask != promote rhs.mask

end ValidityMask

-- `CellStatus` of `system_enums.hpp`.
structure CellStatus where
  value : BitVec 8
deriving DecidableEq, Repr

namespace CellStatus

def active : CellStatus := ⟨0#8⟩
def balancing : CellStatus := ⟨1#8⟩
def bypassed : CellStatus := ⟨2#8⟩
def swellingWarn : CellStatus := ⟨3#8⟩
def faulted : CellStatus := ⟨4#8⟩

end CellStatus

structure CellMetrics where
  voltageV : BitVec 32 := 0#32
  temperatureC : BitVec 32 := 0#32
  swellingForceN : BitVec 32 := 0#32
  timestampMs : BitVec 32 := 0#32
  sequenceId : BitVec 16 := 0#16
  status : CellStatus := CellStatus.active
  validity : ValidityMask := {}
  isBalancing : Bool := false
  crc16 : BitVec 16 := 0#16
deriving DecidableEq, Repr

structure PackMetrics where
  totalVoltageV : BitVec 32 := 0#32
  packCurrentA : BitVec 32 := 0#32
  deltaVoltageV : BitVec 32 := 0#32
  maxCellTempC : BitVec 32 := 0#32
  minCellTempC : BitVec 32 := 0#32
  stateOfChargePct : BitVec 32 := 0#32
  timestampMs : BitVec 32 := 0#32
  sequenceId : BitVec 16 := 0#16
  activeFaults : FaultMask := {}
  activeCellCount : BitVec 8 := 0#8
  validity : ValidityMask := {}
  crc16 : BitVec 16 := 0#16
deriving DecidableEq, Repr

end Bms.Types
