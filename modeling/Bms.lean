import Bms.SafetyKeys.History
import Bms.SafetyKeys.Clock
import Bms.SafetyKeys.Corruption
import Bms.Reasoning.FlagPrograms
import Bms.Types.Promotion
import Bms.FaultMasks.Refinement
import Bms.FaultMasks.History
import Bms.FaultMasks.Schedule
import Bms.FaultMasks.NamedFaults
import Bms.Reasoning.StructLayout
import Bms.Telemetry.ByteImages
import Bms.SafetyKeys.Interruption
import Bms.Telemetry.Padding
import Bms.Telemetry.Calibration
import Bms.Telemetry.ValidityHistory
import Bms.FaultMasks.Expressions
import Bms.Telemetry.Expressions
import Bms.Reasoning.BitActions
import Bms.Reasoning.BitSchedules
import Bms.FaultMasks.Scripts
import Bms.Telemetry.Scripts
import Bms.Reasoning.RegisterFile
import Bms.Reasoning.NestedRegisters
import Bms.Reasoning.WriteOrders
import Bms.SafetyKeys.Preemption
import Bms.Reasoning.Observation
import Bms.SafetyKeys.Observation
import Bms.SafetyKeys.CallLogs
import Bms.SafetyKeys.Distance
import Bms.Reasoning.LeastFlips
import Bms.SafetyKeys.Overtaken
import Bms.Telemetry.TornCopies
import Bms.Reasoning.RecordLayout
import Bms.Types.DriverData
import Bms.Types.DriverPackets
import Bms.Drivers.Packets
import Bms.SafetyKeys.KeyCopies
import Bms.FaultMasks.Reachable
import Bms.Telemetry.Reachable
