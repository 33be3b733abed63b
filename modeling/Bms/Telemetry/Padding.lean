import Bms.Telemetry.ByteImages

/-!
# Padding under the checksum

Assignments to the members of a struct do not touch its padding.  `CellMetrics` has one padding byte,
between `is_balancing` and `crc16`, and the checksum covers it, so that equal telemetry need not have
equal checksums.  `PackMetrics` has no padding.
-/

open Bms.Reasoning Bms.Types

namespace Bms.Telemetry

/-- The bytes under the checksum are equal in two objects of one value, and so is any checksum. -/
def SameCrcInput {α : Type} (c : StructCodec α) (v : α) (pad pad' : ℕ → Byte) : Prop :=
  crcRange c pad v = crcRange c pad' v ∧
    ∀ checksum : List Byte → BitVec 16, checksum (crcRange c pad v) = checksum (crcRange c pad' v)

theorem sameCrcInput_iff {α : Type} (c : TrailerCodec α (BitVec 16)) (hlast : c.lastSlot.size = 2)
    (v : α) (pad pad' : ℕ → Byte) :
    SameCrcInput c.toStructCodec v pad pad' ↔ ∀ i ∈ gapsFrom 0 c.slots, pad i = pad' i := by
  have hbytes : crcRange c.toStructCodec pad v = crcRange c.toStructCodec pad' v ↔
      ∀ i ∈ gapsFrom 0 c.slots, pad i = pad' i := by
    rw [crcRange_eq c hlast, crcRange_eq c hlast]
    exact c.take_image_eq_iff pad pad' v
  rw [← hbytes]
  exact ⟨fun h => h.1, fun h => ⟨h, fun checksum => congrArg checksum h⟩⟩

theorem cellCodec_gaps : gapsFrom 0 cellCodec.slots = [21] := by decide

theorem packCodec_gaps : gapsFrom 0 packCodec.slots = [] := by decide

/-- **When the checksum input is a function of the telemetry.**  Two `CellMetrics` objects of one
value agree on the bytes under the checksum exactly when they agree on the padding byte at offset 21;
two `PackMetrics` objects always do. -/
theorem crcInput_deterministic_iff (v : CellMetrics) (w : PackMetrics) (pad pad' : ℕ → Byte) :
    (SameCrcInput cellCodec.toStructCodec v pad pad' ↔ pad 21 = pad' 21) ∧
      SameCrcInput packCodec.toStructCodec w pad pad' := by
  apply And.intro
  · rw [sameCrcInput_iff cellCodec rfl, cellCodec_gaps, List.forall_mem_singleton]
  · rw [sameCrcInput_iff packCodec rfl, packCodec_gaps]
    exact fun i hi => absurd hi List.not_mem_nil

-- Two default cells, one on zeroed memory and one on memory filled with ones.
theorem crcInput_differs_padding :
    ¬ ((∀ (v : CellMetrics) (pad pad' : ℕ → Byte),
        SameCrcInput cellCodec.toStructCodec v pad pad') ∧
      ∀ (v : PackMetrics) (pad pad' : ℕ → Byte),
        SameCrcInput packCodec.toStructCodec v pad pad') := by
  intro h
  have hbytes := (h.1 {} (fun _ => 0#8) (fun _ => 0xFF#8)).1
  revert hbytes
  decide +kernel

end Bms.Telemetry
