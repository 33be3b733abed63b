import Mathlib

/-!
# Driver data

The data classes of the drivers: private members, each with a getter and a setter, all of them zero
in a new object.  A `float` is its 32-bit pattern, and `LedPattern` over `uint8_t` holds any 8-bit
value.  A getter of an array, which returns a reference, gives its value.
-/

namespace Bms.Types

-- Architectural constants of `telemetry_types.hpp`.
def maxCellCount : ℕ := 16
def maxThermistors : ℕ := 8

structure LedPattern where
  value : BitVec 8
deriving DecidableEq, Repr

def LedPattern.off : LedPattern := ⟨0#8⟩

/-! ## `bypass_mosfet_data.hpp` -/

structure BypassMosfetCommandedData where
  bypassCommanded_ : Vector Bool maxCellCount := Vector.replicate maxCellCount false
  commandTimestamp_ : BitVec 32 := 0#32
deriving DecidableEq, Repr

namespace BypassMosfetCommandedData

def getBypassCommanded (d : BypassMosfetCommandedData) : Vector Bool maxCellCount :=
  d.bypassCommanded_

def getCommandTimestamp (d : BypassMosfetCommandedData) : BitVec 32 := d.commandTimestamp_

def setBypassCommanded (d : BypassMosfetCommandedData) (commanded : Vector Bool maxCellCount) :
    BypassMosfetCommandedData :=
  { d with bypassCommanded_ := commanded }

def setCommandTimestamp (d : BypassMosfetCommandedData) (timestamp : BitVec 32) :
    BypassMosfetCommandedData :=
  { d with commandTimestamp_ := timestamp }

end BypassMosfetCommandedData

structure BypassMosfetActualData where
  bypassConfirmed_ : Vector Bool maxCellCount := Vector.replicate maxCellCount false
  isStuckFault_ : Vector Bool maxCellCount := Vector.replicate maxCellCount false
  feedbackTimestamp_ : BitVec 32 := 0#32
deriving DecidableEq, Repr

namespace BypassMosfetActualData

def getBypassConfirmed (d : BypassMosfetActualData) : Vector Bool maxCellCount := d.bypassConfirmed_
def getIsStuckFault (d : BypassMosfetActualData) : Vector Bool maxCellCount := d.isStuckFault_
def getFeedbackTimestamp (d : BypassMosfetActualData) : BitVec 32 := d.feedbackTimestamp_

def setBypassConfirmed (d : BypassMosfetActualData) (confirmed : Vector Bool maxCellCount) :
    BypassMosfetActualData :=
  { d with bypassConfirmed_ := confirmed }

def setIsStuckFault (d : BypassMosfetActualData) (stuck : Vector Bool maxCellCount) :
    BypassMosfetActualData :=
  { d with isStuckFault_ := stuck }

def setFeedbackTimestamp (d : BypassMosfetActualData) (timestamp : BitVec 32) :
    BypassMosfetActualData :=
  { d with feedbackTimestamp_ := timestamp }

end BypassMosfetActualData

/-! ## `contactor_data.hpp` -/

structure ContactorCommandedData where
  closeCommanded_ : Bool := false
  commandTimestamp_ : BitVec 32 := 0#32
deriving DecidableEq, Repr

namespace ContactorCommandedData

def getCloseCommanded (d : ContactorCommandedData) : Bool := d.closeCommanded_
def getCommandTimestamp (d : ContactorCommandedData) : BitVec 32 := d.commandTimestamp_

def setCloseCommanded (d : ContactorCommandedData) (close : Bool) : ContactorCommandedData :=
  { d with closeCommanded_ := close }

def setCommandTimestamp (d : ContactorCommandedData) (timestamp : BitVec 32) :
    ContactorCommandedData :=
  { d with commandTimestamp_ := timestamp }

end ContactorCommandedData

structure ContactorActualData where
  isClosed_ : Bool := false
  isStuckFault_ : Bool := false
  feedbackTimestamp_ : BitVec 32 := 0#32
deriving DecidableEq, Repr

namespace ContactorActualData

def getIsClosed (d : ContactorActualData) : Bool := d.isClosed_
def getIsStuckFault (d : ContactorActualData) : Bool := d.isStuckFault_
def getFeedbackTimestamp (d : ContactorActualData) : BitVec 32 := d.feedbackTimestamp_

def setIsClosed (d : ContactorActualData) (closed : Bool) : ContactorActualData :=
  { d with isClosed_ := closed }

def setIsStuckFault (d : ContactorActualData) (stuck : Bool) : ContactorActualData :=
  { d with isStuckFault_ := stuck }

def setFeedbackTimestamp (d : ContactorActualData) (timestamp : BitVec 32) : ContactorActualData :=
  { d with feedbackTimestamp_ := timestamp }

end ContactorActualData

/-! ## `current_sensor_data.hpp` -/

structure CurrentSensorRawData where
  rawCount_ : BitVec 16 := 0#16
  acquisitionTimestamp_ : BitVec 32 := 0#32
  isConversionValid_ : Bool := false
deriving DecidableEq, Repr

namespace CurrentSensorRawData

def getRawCount (d : CurrentSensorRawData) : BitVec 16 := d.rawCount_
def getAcquisitionTimestamp (d : CurrentSensorRawData) : BitVec 32 := d.acquisitionTimestamp_
def isConversionValid (d : CurrentSensorRawData) : Bool := d.isConversionValid_

def setRawCount (d : CurrentSensorRawData) (count : BitVec 16) : CurrentSensorRawData :=
  { d with rawCount_ := count }

def setAcquisitionTimestamp (d : CurrentSensorRawData) (timestamp : BitVec 32) :
    CurrentSensorRawData :=
  { d with acquisitionTimestamp_ := timestamp }

def setConversionValid (d : CurrentSensorRawData) (valid : Bool) : CurrentSensorRawData :=
  { d with isConversionValid_ := valid }

end CurrentSensorRawData

structure CurrentSensorProcessedData where
  currentAmperes_ : BitVec 32 := 0#32
  filteredCurrentAmperes_ : BitVec 32 := 0#32
deriving DecidableEq, Repr

namespace CurrentSensorProcessedData

def getCurrentAmperes (d : CurrentSensorProcessedData) : BitVec 32 := d.currentAmperes_
def getFilteredCurrentAmperes (d : CurrentSensorProcessedData) : BitVec 32 :=
  d.filteredCurrentAmperes_

def setCurrentAmperes (d : CurrentSensorProcessedData) (current : BitVec 32) :
    CurrentSensorProcessedData :=
  { d with currentAmperes_ := current }

def setFilteredCurrentAmperes (d : CurrentSensorProcessedData) (filtered : BitVec 32) :
    CurrentSensorProcessedData :=
  { d with filteredCurrentAmperes_ := filtered }

end CurrentSensorProcessedData

/-! ## `leds_data.hpp` -/

structure LedsCommandedData where
  pattern_ : Vector LedPattern maxCellCount := Vector.replicate maxCellCount .off
  brightnessPct_ : Vector (BitVec 8) maxCellCount := Vector.replicate maxCellCount 0#8
  colorRgb_ : Vector (BitVec 32) maxCellCount := Vector.replicate maxCellCount 0#32
deriving DecidableEq, Repr

namespace LedsCommandedData

def getPattern (d : LedsCommandedData) : Vector LedPattern maxCellCount := d.pattern_
def getBrightnessPct (d : LedsCommandedData) : Vector (BitVec 8) maxCellCount := d.brightnessPct_
def getColorRgb (d : LedsCommandedData) : Vector (BitVec 32) maxCellCount := d.colorRgb_

def setPattern (d : LedsCommandedData) (pattern : Vector LedPattern maxCellCount) :
    LedsCommandedData :=
  { d with pattern_ := pattern }

def setBrightnessPct (d : LedsCommandedData) (brightness : Vector (BitVec 8) maxCellCount) :
    LedsCommandedData :=
  { d with brightnessPct_ := brightness }

def setColorRgb (d : LedsCommandedData) (color : Vector (BitVec 32) maxCellCount) :
    LedsCommandedData :=
  { d with colorRgb_ := color }

end LedsCommandedData

/-! ## `pyro_fuse_data.hpp` -/

structure PyroFuseCommandedData where
  triggerCommanded_ : Bool := false
  armedCommanded_ : Bool := false
  commandTimestamp_ : BitVec 32 := 0#32
deriving DecidableEq, Repr

namespace PyroFuseCommandedData

def getTriggerCommanded (d : PyroFuseCommandedData) : Bool := d.triggerCommanded_
def getArmedCommanded (d : PyroFuseCommandedData) : Bool := d.armedCommanded_
def getCommandTimestamp (d : PyroFuseCommandedData) : BitVec 32 := d.commandTimestamp_

def setTriggerCommanded (d : PyroFuseCommandedData) (trigger : Bool) : PyroFuseCommandedData :=
  { d with triggerCommanded_ := trigger }

def setArmedCommanded (d : PyroFuseCommandedData) (armed : Bool) : PyroFuseCommandedData :=
  { d with armedCommanded_ := armed }

def setCommandTimestamp (d : PyroFuseCommandedData) (timestamp : BitVec 32) :
    PyroFuseCommandedData :=
  { d with commandTimestamp_ := timestamp }

end PyroFuseCommandedData

structure PyroFuseActualData where
  isArmed_ : Bool := false
  isTriggered_ : Bool := false
  triggerTimestamp_ : BitVec 32 := 0#32
  isContinuityOk_ : Bool := false
deriving DecidableEq, Repr

namespace PyroFuseActualData

def getIsArmed (d : PyroFuseActualData) : Bool := d.isArmed_
def getIsTriggered (d : PyroFuseActualData) : Bool := d.isTriggered_
def getTriggerTimestamp (d : PyroFuseActualData) : BitVec 32 := d.triggerTimestamp_
def getIsContinuityOk (d : PyroFuseActualData) : Bool := d.isContinuityOk_

def setIsArmed (d : PyroFuseActualData) (armed : Bool) : PyroFuseActualData :=
  { d with isArmed_ := armed }

def setIsTriggered (d : PyroFuseActualData) (triggered : Bool) : PyroFuseActualData :=
  { d with isTriggered_ := triggered }

def setTriggerTimestamp (d : PyroFuseActualData) (timestamp : BitVec 32) : PyroFuseActualData :=
  { d with triggerTimestamp_ := timestamp }

def setIsContinuityOk (d : PyroFuseActualData) (ok : Bool) : PyroFuseActualData :=
  { d with isContinuityOk_ := ok }

end PyroFuseActualData

/-! ## Raw readings -/

-- The raw readings of `swelling_data.hpp`, `temperature_data.hpp` and `voltage_adc_data.hpp` differ
-- in the number of channels.

structure RawReadingData (channels : ℕ) where
  rawCounts_ : Vector (BitVec 16) channels := Vector.replicate channels 0#16
  acquisitionTimestamp_ : BitVec 32 := 0#32
  isConversionValid_ : Bool := false
deriving DecidableEq, Repr

namespace RawReadingData

variable {channels : ℕ}

def getRawCounts (d : RawReadingData channels) : Vector (BitVec 16) channels := d.rawCounts_
def getAcquisitionTimestamp (d : RawReadingData channels) : BitVec 32 := d.acquisitionTimestamp_
def isConversionValid (d : RawReadingData channels) : Bool := d.isConversionValid_

def setRawCounts (d : RawReadingData channels) (counts : Vector (BitVec 16) channels) :
    RawReadingData channels :=
  { d with rawCounts_ := counts }

def setAcquisitionTimestamp (d : RawReadingData channels) (timestamp : BitVec 32) :
    RawReadingData channels :=
  { d with acquisitionTimestamp_ := timestamp }

def setConversionValid (d : RawReadingData channels) (valid : Bool) : RawReadingData channels :=
  { d with isConversionValid_ := valid }

end RawReadingData

abbrev SwellingRawData := RawReadingData maxCellCount
abbrev TemperatureRawData := RawReadingData maxThermistors
abbrev VoltageAdcRawData := RawReadingData maxCellCount

/-! ## `swelling_data.hpp` -/

structure SwellingProcessedData where
  cellPressureKpa_ : Vector (BitVec 32) maxCellCount := Vector.replicate maxCellCount 0#32
  isSwellingDetected_ : Vector Bool maxCellCount := Vector.replicate maxCellCount false
deriving DecidableEq, Repr

namespace SwellingProcessedData

def getCellPressureKpa (d : SwellingProcessedData) : Vector (BitVec 32) maxCellCount :=
  d.cellPressureKpa_

def getIsSwellingDetected (d : SwellingProcessedData) : Vector Bool maxCellCount :=
  d.isSwellingDetected_

def setCellPressureKpa (d : SwellingProcessedData) (pressures : Vector (BitVec 32) maxCellCount) :
    SwellingProcessedData :=
  { d with cellPressureKpa_ := pressures }

def setIsSwellingDetected (d : SwellingProcessedData) (detected : Vector Bool maxCellCount) :
    SwellingProcessedData :=
  { d with isSwellingDetected_ := detected }

end SwellingProcessedData

/-! ## `temperature_data.hpp` -/

structure TemperatureProcessedData where
  cellTempsC_ : Vector (BitVec 32) maxThermistors := Vector.replicate maxThermistors 0#32
  ambientTempC_ : BitVec 32 := 0#32
  maxCellTempC_ : BitVec 32 := 0#32
  thermalRiseRateCS_ : BitVec 32 := 0#32
deriving DecidableEq, Repr

namespace TemperatureProcessedData

def getCellTempsC (d : TemperatureProcessedData) : Vector (BitVec 32) maxThermistors :=
  d.cellTempsC_

def getAmbientTempC (d : TemperatureProcessedData) : BitVec 32 := d.ambientTempC_
def getMaxCellTempC (d : TemperatureProcessedData) : BitVec 32 := d.maxCellTempC_
def getThermalRiseRateCS (d : TemperatureProcessedData) : BitVec 32 := d.thermalRiseRateCS_

def setCellTempsC (d : TemperatureProcessedData) (temps : Vector (BitVec 32) maxThermistors) :
    TemperatureProcessedData :=
  { d with cellTempsC_ := temps }

def setAmbientTempC (d : TemperatureProcessedData) (ambient : BitVec 32) :
    TemperatureProcessedData :=
  { d with ambientTempC_ := ambient }

def setMaxCellTempC (d : TemperatureProcessedData) (maxTemp : BitVec 32) :
    TemperatureProcessedData :=
  { d with maxCellTempC_ := maxTemp }

def setThermalRiseRateCS (d : TemperatureProcessedData) (rate : BitVec 32) :
    TemperatureProcessedData :=
  { d with thermalRiseRateCS_ := rate }

end TemperatureProcessedData

/-! ## `voltage_adc_data.hpp` -/

structure VoltageProcessedData where
  cellVoltagesMv_ : Vector (BitVec 16) maxCellCount := Vector.replicate maxCellCount 0#16
  minVoltageMv_ : BitVec 16 := 0#16
  maxVoltageMv_ : BitVec 16 := 0#16
  deltaVoltageMv_ : BitVec 16 := 0#16
  totalPackVoltageV_ : BitVec 32 := 0#32
deriving DecidableEq, Repr

namespace VoltageProcessedData

def getCellVoltagesMv (d : VoltageProcessedData) : Vector (BitVec 16) maxCellCount :=
  d.cellVoltagesMv_

def getMinVoltageMv (d : VoltageProcessedData) : BitVec 16 := d.minVoltageMv_
def getMaxVoltageMv (d : VoltageProcessedData) : BitVec 16 := d.maxVoltageMv_
def getDeltaVoltageMv (d : VoltageProcessedData) : BitVec 16 := d.deltaVoltageMv_
def getTotalPackVoltageV (d : VoltageProcessedData) : BitVec 32 := d.totalPackVoltageV_

def setCellVoltagesMv (d : VoltageProcessedData) (voltages : Vector (BitVec 16) maxCellCount) :
    VoltageProcessedData :=
  { d with cellVoltagesMv_ := voltages }

def setMinVoltageMv (d : VoltageProcessedData) (minV : BitVec 16) : VoltageProcessedData :=
  { d with minVoltageMv_ := minV }

def setMaxVoltageMv (d : VoltageProcessedData) (maxV : BitVec 16) : VoltageProcessedData :=
  { d with maxVoltageMv_ := maxV }

def setDeltaVoltageMv (d : VoltageProcessedData) (deltaV : BitVec 16) : VoltageProcessedData :=
  { d with deltaVoltageMv_ := deltaV }

def setTotalPackVoltageV (d : VoltageProcessedData) (totalV : BitVec 32) : VoltageProcessedData :=
  { d with totalPackVoltageV_ := totalV }

end VoltageProcessedData

end Bms.Types
