import Bms.Reasoning.NestedRegisters
import Bms.Reasoning.RecordLayout
import Bms.Types.DriverData

/-!
# Driver packets

The data classes as records whose fields are their members.  The accessors read and write one member
each, a member has the bytes of its type, and its scalars are itself or the elements of an array.
-/

open Bms.Reasoning

namespace Bms.Types

/-! ## Member types -/

inductive Scalar
  | bool
  | uint8
  | uint16
  | uint32
  | float
  | ledPattern
deriving DecidableEq, Repr

namespace Scalar

abbrev Value : Scalar → Type
  | .bool => Bool
  | .uint8 => BitVec 8
  | .uint16 => BitVec 16
  | .uint32 | .float => BitVec 32
  | .ledPattern => LedPattern

def member : (s : Scalar) → Member s.Value
  | .bool => .bool
  | .uint8 => .uint8
  | .uint16 => .uint16
  | .uint32 | .float => .uint32
  | .ledPattern => Member.uint8.via LedPattern.value LedPattern.mk fun _ => rfl

instance (s : Scalar) : Nontrivial s.Value := by
  cases s with
  | bool => exact ⟨false, true, by decide⟩
  | uint8 => exact ⟨0#8, 1#8, by decide⟩
  | uint16 => exact ⟨0#16, 1#16, by decide⟩
  | uint32 | float => exact ⟨0#32, 1#32, by decide⟩
  | ledPattern => exact ⟨⟨0#8⟩, ⟨1#8⟩, by decide⟩

end Scalar

inductive CType
  | scalar (s : Scalar)
  | array (s : Scalar) (n : ℕ)
deriving DecidableEq, Repr

namespace CType

abbrev Value : CType → Type
  | .scalar s => s.Value
  | .array s n => Vector s.Value n

def member : (t : CType) → Member t.Value
  | .scalar s => s.member
  | .array s n => s.member.array n

-- The type and the number of the scalars.
def base : CType → Scalar
  | .scalar s | .array s _ => s

def length : CType → ℕ
  | .scalar _ => 1
  | .array _ n => n

def scalars : (t : CType) → RegisterFile t.Value (Fin t.length) fun _ => t.base.Value
  | .scalar s => .single s.Value
  | .array s n => .vector s.Value n

end CType

/-! ## Data classes -/

/-- The members of a class, in declaration order, with their types and accessors. -/
structure DataClass where
  Object : Type
  Field : Type
  [decidableEq : DecidableEq Field]
  order : List Field
  nodup : order.Nodup := by decide
  mem_order : ∀ f, f ∈ order := by intro f; cases f <;> decide
  type : Field → CType
  length_pos : ∀ f, 0 < (type f).length := by intro f; cases f <;> decide
  get : Object → (f : Field) → (type f).Value
  set : Object → (f : Field) → (type f).Value → Object
  get_set : ∀ d f v, get (set d f v) = Function.update (get d) f v := by
    intro d f v; funext g; cases f <;> cases g <;> rfl
  -- The default constructor, and an object with given members.
  init : Object
  build : ((f : Field) → (type f).Value) → Object
  get_build : ∀ v, get (build v) = v := by intro v; funext f; cases f <;> rfl
  build_get : ∀ d, build (get d) = d := by intro d; rfl

namespace DataClass

instance (C : DataClass) : DecidableEq C.Field := C.decidableEq

abbrev Value (C : DataClass) (f : C.Field) : Type := (C.type f).Value

variable {C : DataClass}

-- The getter of a member.
def Object.get (d : C.Object) (f : C.Field) : C.Value f := DataClass.get C d f

/-- The setters and getters of a class are the writes and reads of its members. -/
def file (C : DataClass) : RegisterFile C.Object C.Field C.Value where
  get := C.get
  set := C.set
  get_set_self d f v := by rw [C.get_set, Function.update_self]
  get_set_of_ne d f g v h := by rw [C.get_set, Function.update_of_ne h]
  ext d d' h := by rw [← C.build_get d, ← C.build_get d', funext h]

def layout (C : DataClass) : RecordLayout C.file where
  order := C.order
  nodup := C.nodup
  mem_order := C.mem_order
  build := C.build
  get_build v f := congrFun (C.get_build v) f
  member f := (C.type f).member

end DataClass

/-! ## The classes of the drivers -/

-- `bypass_mosfet_data.hpp`

inductive BypassMosfetCommandedField
  | bypassCommanded
  | commandTimestamp
deriving DecidableEq, Repr

def bypassMosfetCommandedData : DataClass where
  Object := BypassMosfetCommandedData
  Field := BypassMosfetCommandedField
  order := [.bypassCommanded, .commandTimestamp]
  type
    | .bypassCommanded => .array .bool maxCellCount
    | .commandTimestamp => .scalar .uint32
  get d
    | .bypassCommanded => d.getBypassCommanded
    | .commandTimestamp => d.getCommandTimestamp
  set d
    | .bypassCommanded => d.setBypassCommanded
    | .commandTimestamp => d.setCommandTimestamp
  init := {}
  build v := ⟨v .bypassCommanded, v .commandTimestamp⟩

inductive BypassMosfetActualField
  | bypassConfirmed
  | isStuckFault
  | feedbackTimestamp
deriving DecidableEq, Repr

def bypassMosfetActualData : DataClass where
  Object := BypassMosfetActualData
  Field := BypassMosfetActualField
  order := [.bypassConfirmed, .isStuckFault, .feedbackTimestamp]
  type
    | .bypassConfirmed | .isStuckFault => .array .bool maxCellCount
    | .feedbackTimestamp => .scalar .uint32
  get d
    | .bypassConfirmed => d.getBypassConfirmed
    | .isStuckFault => d.getIsStuckFault
    | .feedbackTimestamp => d.getFeedbackTimestamp
  set d
    | .bypassConfirmed => d.setBypassConfirmed
    | .isStuckFault => d.setIsStuckFault
    | .feedbackTimestamp => d.setFeedbackTimestamp
  init := {}
  build v := ⟨v .bypassConfirmed, v .isStuckFault, v .feedbackTimestamp⟩

-- `contactor_data.hpp`

inductive ContactorCommandedField
  | closeCommanded
  | commandTimestamp
deriving DecidableEq, Repr

def contactorCommandedData : DataClass where
  Object := ContactorCommandedData
  Field := ContactorCommandedField
  order := [.closeCommanded, .commandTimestamp]
  type
    | .closeCommanded => .scalar .bool
    | .commandTimestamp => .scalar .uint32
  get d
    | .closeCommanded => d.getCloseCommanded
    | .commandTimestamp => d.getCommandTimestamp
  set d
    | .closeCommanded => d.setCloseCommanded
    | .commandTimestamp => d.setCommandTimestamp
  init := {}
  build v := ⟨v .closeCommanded, v .commandTimestamp⟩

inductive ContactorActualField
  | isClosed
  | isStuckFault
  | feedbackTimestamp
deriving DecidableEq, Repr

def contactorActualData : DataClass where
  Object := ContactorActualData
  Field := ContactorActualField
  order := [.isClosed, .isStuckFault, .feedbackTimestamp]
  type
    | .isClosed | .isStuckFault => .scalar .bool
    | .feedbackTimestamp => .scalar .uint32
  get d
    | .isClosed => d.getIsClosed
    | .isStuckFault => d.getIsStuckFault
    | .feedbackTimestamp => d.getFeedbackTimestamp
  set d
    | .isClosed => d.setIsClosed
    | .isStuckFault => d.setIsStuckFault
    | .feedbackTimestamp => d.setFeedbackTimestamp
  init := {}
  build v := ⟨v .isClosed, v .isStuckFault, v .feedbackTimestamp⟩

-- `current_sensor_data.hpp`

inductive CurrentSensorRawField
  | rawCount
  | acquisitionTimestamp
  | isConversionValid
deriving DecidableEq, Repr

def currentSensorRawData : DataClass where
  Object := CurrentSensorRawData
  Field := CurrentSensorRawField
  order := [.rawCount, .acquisitionTimestamp, .isConversionValid]
  type
    | .rawCount => .scalar .uint16
    | .acquisitionTimestamp => .scalar .uint32
    | .isConversionValid => .scalar .bool
  get d
    | .rawCount => d.getRawCount
    | .acquisitionTimestamp => d.getAcquisitionTimestamp
    | .isConversionValid => d.isConversionValid
  set d
    | .rawCount => d.setRawCount
    | .acquisitionTimestamp => d.setAcquisitionTimestamp
    | .isConversionValid => d.setConversionValid
  init := {}
  build v := ⟨v .rawCount, v .acquisitionTimestamp, v .isConversionValid⟩

inductive CurrentSensorProcessedField
  | currentAmperes
  | filteredCurrentAmperes
deriving DecidableEq, Repr

def currentSensorProcessedData : DataClass where
  Object := CurrentSensorProcessedData
  Field := CurrentSensorProcessedField
  order := [.currentAmperes, .filteredCurrentAmperes]
  type
    | .currentAmperes | .filteredCurrentAmperes => .scalar .float
  get d
    | .currentAmperes => d.getCurrentAmperes
    | .filteredCurrentAmperes => d.getFilteredCurrentAmperes
  set d
    | .currentAmperes => d.setCurrentAmperes
    | .filteredCurrentAmperes => d.setFilteredCurrentAmperes
  init := {}
  build v := ⟨v .currentAmperes, v .filteredCurrentAmperes⟩

-- `leds_data.hpp`

inductive LedsCommandedField
  | pattern
  | brightnessPct
  | colorRgb
deriving DecidableEq, Repr

def ledsCommandedData : DataClass where
  Object := LedsCommandedData
  Field := LedsCommandedField
  order := [.pattern, .brightnessPct, .colorRgb]
  type
    | .pattern => .array .ledPattern maxCellCount
    | .brightnessPct => .array .uint8 maxCellCount
    | .colorRgb => .array .uint32 maxCellCount
  get d
    | .pattern => d.getPattern
    | .brightnessPct => d.getBrightnessPct
    | .colorRgb => d.getColorRgb
  set d
    | .pattern => d.setPattern
    | .brightnessPct => d.setBrightnessPct
    | .colorRgb => d.setColorRgb
  init := {}
  build v := ⟨v .pattern, v .brightnessPct, v .colorRgb⟩

-- `pyro_fuse_data.hpp`

inductive PyroFuseCommandedField
  | triggerCommanded
  | armedCommanded
  | commandTimestamp
deriving DecidableEq, Repr

def pyroFuseCommandedData : DataClass where
  Object := PyroFuseCommandedData
  Field := PyroFuseCommandedField
  order := [.triggerCommanded, .armedCommanded, .commandTimestamp]
  type
    | .triggerCommanded | .armedCommanded => .scalar .bool
    | .commandTimestamp => .scalar .uint32
  get d
    | .triggerCommanded => d.getTriggerCommanded
    | .armedCommanded => d.getArmedCommanded
    | .commandTimestamp => d.getCommandTimestamp
  set d
    | .triggerCommanded => d.setTriggerCommanded
    | .armedCommanded => d.setArmedCommanded
    | .commandTimestamp => d.setCommandTimestamp
  init := {}
  build v := ⟨v .triggerCommanded, v .armedCommanded, v .commandTimestamp⟩

inductive PyroFuseActualField
  | isArmed
  | isTriggered
  | triggerTimestamp
  | isContinuityOk
deriving DecidableEq, Repr

def pyroFuseActualData : DataClass where
  Object := PyroFuseActualData
  Field := PyroFuseActualField
  order := [.isArmed, .isTriggered, .triggerTimestamp, .isContinuityOk]
  type
    | .isArmed | .isTriggered | .isContinuityOk => .scalar .bool
    | .triggerTimestamp => .scalar .uint32
  get d
    | .isArmed => d.getIsArmed
    | .isTriggered => d.getIsTriggered
    | .triggerTimestamp => d.getTriggerTimestamp
    | .isContinuityOk => d.getIsContinuityOk
  set d
    | .isArmed => d.setIsArmed
    | .isTriggered => d.setIsTriggered
    | .triggerTimestamp => d.setTriggerTimestamp
    | .isContinuityOk => d.setIsContinuityOk
  init := {}
  build v := ⟨v .isArmed, v .isTriggered, v .triggerTimestamp, v .isContinuityOk⟩

-- `swelling_data.hpp`, `temperature_data.hpp` and `voltage_adc_data.hpp`

inductive RawReadingField
  | rawCounts
  | acquisitionTimestamp
  | isConversionValid
deriving DecidableEq, Repr

def rawReadingData (channels : ℕ) (h : 0 < channels) : DataClass where
  Object := RawReadingData channels
  Field := RawReadingField
  order := [.rawCounts, .acquisitionTimestamp, .isConversionValid]
  type
    | .rawCounts => .array .uint16 channels
    | .acquisitionTimestamp => .scalar .uint32
    | .isConversionValid => .scalar .bool
  length_pos f := by
    cases f with
    | rawCounts => exact h
    | acquisitionTimestamp | isConversionValid => exact Nat.one_pos
  get d
    | .rawCounts => d.getRawCounts
    | .acquisitionTimestamp => d.getAcquisitionTimestamp
    | .isConversionValid => d.isConversionValid
  set d
    | .rawCounts => d.setRawCounts
    | .acquisitionTimestamp => d.setAcquisitionTimestamp
    | .isConversionValid => d.setConversionValid
  init := {}
  build v := ⟨v .rawCounts, v .acquisitionTimestamp, v .isConversionValid⟩

def swellingRawData : DataClass := rawReadingData maxCellCount (by decide)
def temperatureRawData : DataClass := rawReadingData maxThermistors (by decide)
def voltageAdcRawData : DataClass := rawReadingData maxCellCount (by decide)

-- `swelling_data.hpp`

inductive SwellingProcessedField
  | cellPressureKpa
  | isSwellingDetected
deriving DecidableEq, Repr

def swellingProcessedData : DataClass where
  Object := SwellingProcessedData
  Field := SwellingProcessedField
  order := [.cellPressureKpa, .isSwellingDetected]
  type
    | .cellPressureKpa => .array .float maxCellCount
    | .isSwellingDetected => .array .bool maxCellCount
  get d
    | .cellPressureKpa => d.getCellPressureKpa
    | .isSwellingDetected => d.getIsSwellingDetected
  set d
    | .cellPressureKpa => d.setCellPressureKpa
    | .isSwellingDetected => d.setIsSwellingDetected
  init := {}
  build v := ⟨v .cellPressureKpa, v .isSwellingDetected⟩

-- `temperature_data.hpp`

inductive TemperatureProcessedField
  | cellTempsC
  | ambientTempC
  | maxCellTempC
  | thermalRiseRateCS
deriving DecidableEq, Repr

def temperatureProcessedData : DataClass where
  Object := TemperatureProcessedData
  Field := TemperatureProcessedField
  order := [.cellTempsC, .ambientTempC, .maxCellTempC, .thermalRiseRateCS]
  type
    | .cellTempsC => .array .float maxThermistors
    | .ambientTempC | .maxCellTempC | .thermalRiseRateCS => .scalar .float
  get d
    | .cellTempsC => d.getCellTempsC
    | .ambientTempC => d.getAmbientTempC
    | .maxCellTempC => d.getMaxCellTempC
    | .thermalRiseRateCS => d.getThermalRiseRateCS
  set d
    | .cellTempsC => d.setCellTempsC
    | .ambientTempC => d.setAmbientTempC
    | .maxCellTempC => d.setMaxCellTempC
    | .thermalRiseRateCS => d.setThermalRiseRateCS
  init := {}
  build v := ⟨v .cellTempsC, v .ambientTempC, v .maxCellTempC, v .thermalRiseRateCS⟩

-- `voltage_adc_data.hpp`

inductive VoltageProcessedField
  | cellVoltagesMv
  | minVoltageMv
  | maxVoltageMv
  | deltaVoltageMv
  | totalPackVoltageV
deriving DecidableEq, Repr

def voltageProcessedData : DataClass where
  Object := VoltageProcessedData
  Field := VoltageProcessedField
  order := [.cellVoltagesMv, .minVoltageMv, .maxVoltageMv, .deltaVoltageMv, .totalPackVoltageV]
  type
    | .cellVoltagesMv => .array .uint16 maxCellCount
    | .minVoltageMv | .maxVoltageMv | .deltaVoltageMv => .scalar .uint16
    | .totalPackVoltageV => .scalar .float
  get d
    | .cellVoltagesMv => d.getCellVoltagesMv
    | .minVoltageMv => d.getMinVoltageMv
    | .maxVoltageMv => d.getMaxVoltageMv
    | .deltaVoltageMv => d.getDeltaVoltageMv
    | .totalPackVoltageV => d.getTotalPackVoltageV
  set d
    | .cellVoltagesMv => d.setCellVoltagesMv
    | .minVoltageMv => d.setMinVoltageMv
    | .maxVoltageMv => d.setMaxVoltageMv
    | .deltaVoltageMv => d.setDeltaVoltageMv
    | .totalPackVoltageV => d.setTotalPackVoltageV
  init := {}
  build v := ⟨v .cellVoltagesMv, v .minVoltageMv, v .maxVoltageMv, v .deltaVoltageMv,
    v .totalPackVoltageV⟩

inductive DriverPacket
  | bypassMosfetCommanded
  | bypassMosfetActual
  | contactorCommanded
  | contactorActual
  | currentSensorRaw
  | currentSensorProcessed
  | ledsCommanded
  | pyroFuseCommanded
  | pyroFuseActual
  | swellingRaw
  | swellingProcessed
  | temperatureRaw
  | temperatureProcessed
  | voltageAdcRaw
  | voltageProcessed
deriving DecidableEq, Repr

def DriverPacket.data : DriverPacket → DataClass
  | .bypassMosfetCommanded => bypassMosfetCommandedData
  | .bypassMosfetActual => bypassMosfetActualData
  | .contactorCommanded => contactorCommandedData
  | .contactorActual => contactorActualData
  | .currentSensorRaw => currentSensorRawData
  | .currentSensorProcessed => currentSensorProcessedData
  | .ledsCommanded => ledsCommandedData
  | .pyroFuseCommanded => pyroFuseCommandedData
  | .pyroFuseActual => pyroFuseActualData
  | .swellingRaw => swellingRawData
  | .swellingProcessed => swellingProcessedData
  | .temperatureRaw => temperatureRawData
  | .temperatureProcessed => temperatureProcessedData
  | .voltageAdcRaw => voltageAdcRawData
  | .voltageProcessed => voltageProcessedData

end Bms.Types
