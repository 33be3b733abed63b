import Bms.Reasoning.FlagPrograms
import Bms.Types.Promotion

/-!
# Fault codes and fault masks

`FaultCode` and `FaultMask` of `fault_masks.hpp`.  A scoped enumeration over `uint16_t` holds any
16-bit value, so a fault code is a word; the listed enumerators are constants.  Every operator is
evaluated as C++ does: operands promoted to `int`, the result cast back.
-/

open Bms.Reasoning

namespace Bms.Types

structure FaultCode where
  value : BitVec 16
deriving DecidableEq, Repr

namespace FaultCode

def none : FaultCode := ⟨0x0000#16⟩
def ovp : FaultCode := ⟨1#16 <<< 0⟩
def uvp : FaultCode := ⟨1#16 <<< 1⟩
def ocpCharge : FaultCode := ⟨1#16 <<< 2⟩
def ocpDischarge : FaultCode := ⟨1#16 <<< 3⟩
def otc : FaultCode := ⟨1#16 <<< 4⟩
def utc : FaultCode := ⟨1#16 <<< 5⟩
def shortCircuit : FaultCode := ⟨1#16 <<< 6⟩
def thermalRunaway : FaultCode := ⟨1#16 <<< 7⟩
def swellingCritical : FaultCode := ⟨1#16 <<< 8⟩
def commTimeout : FaultCode := ⟨1#16 <<< 9⟩

-- The ten named fault flags.
def flags : List FaultCode :=
  [ovp, uvp, ocpCharge, ocpDischarge, otc, utc, shortCircuit, thermalRunaway, swellingCritical,
    commTimeout]

def named : List FaultCode := none :: flags

def bits (code : FaultCode) : Finset (Fin 16) := positions code.value

end FaultCode

structure FaultMask where
  mask : BitVec 16 := 0#16
deriving DecidableEq, Repr

namespace FaultMask

def ofRaw (raw : BitVec 16) : FaultMask := ⟨raw⟩

def ofCode (code : FaultCode) : FaultMask := ⟨code.value⟩

def has (m : FaultMask) (code : FaultCode) : Bool := promote m.mask &&& promote code.value != 0#32

def set (m : FaultMask) (code : FaultCode) : FaultMask := ⟨promoted (· ||| ·) m.mask code.value⟩

def clear (m : FaultMask) (code : FaultCode) : FaultMask :=
  -- The complement is cast to 16 bits before the second promotion.
  ⟨promoted (· &&& ·) m.mask (castTo 16 (~~~promote code.value))⟩

def reset (_ : FaultMask) : FaultMask := ⟨0#16⟩

def any (m : FaultMask) : Bool := promote m.mask != 0#32

def isEmpty (m : FaultMask) : Bool := promote m.mask == 0#32

-- `__builtin_popcount` counts the bits of the mask widened to `unsigned int`.
def count (m : FaultMask) : BitVec 8 := castTo 8 (promote m.mask).cpop

def rawValue (m : FaultMask) : BitVec 16 := m.mask

-- Value operators.

def orCode (m : FaultMask) (rhs : FaultCode) : FaultMask := ofRaw (promoted (· ||| ·) m.mask rhs.value)

def orMask (m rhs : FaultMask) : FaultMask := ofRaw (promoted (· ||| ·) m.mask rhs.mask)

def andCode (m : FaultMask) (rhs : FaultCode) : FaultMask :=
  ofRaw (promoted (· &&& ·) m.mask rhs.value)

def andMask (m rhs : FaultMask) : FaultMask := ofRaw (promoted (· &&& ·) m.mask rhs.mask)

def xorCode (m : FaultMask) (rhs : FaultCode) : FaultMask :=
  ofRaw (promoted (· ^^^ ·) m.mask rhs.value)

def xorMask (m rhs : FaultMask) : FaultMask := ofRaw (promoted (· ^^^ ·) m.mask rhs.mask)

def compl (m : FaultMask) : FaultMask := ofRaw (castTo 16 (~~~promote m.mask))

-- Compound assignments.

def orAssignCode (m : FaultMask) (rhs : FaultCode) : FaultMask :=
  ⟨promoted (· ||| ·) m.mask rhs.value⟩

def orAssignMask (m rhs : FaultMask) : FaultMask := ⟨promoted (· ||| ·) m.mask rhs.mask⟩

def andAssignCode (m : FaultMask) (rhs : FaultCode) : FaultMask :=
  ⟨promoted (· &&& ·) m.mask rhs.value⟩

def andAssignMask (m rhs : FaultMask) : FaultMask := ⟨promoted (· &&& ·) m.mask rhs.mask⟩

def xorAssignCode (m : FaultMask) (rhs : FaultCode) : FaultMask :=
  ⟨promoted (· ^^^ ·) m.mask rhs.value⟩

def xorAssignMask (m rhs : FaultMask) : FaultMask := ⟨promoted (· ^^^ ·) m.mask rhs.mask⟩

def opEq (m rhs : FaultMask) : Bool := promote m.mask == promote rhs.mask

def opNe (m rhs : FaultMask) : Bool := promote m.mask != promote rhs.mask

end FaultMask

namespace FaultCode

-- Free operators on two codes.

def or (lhs rhs : FaultCode) : FaultMask := (FaultMask.ofCode lhs).orCode rhs

def and (lhs rhs : FaultCode) : FaultMask := (FaultMask.ofCode lhs).andCode rhs

def xor (lhs rhs : FaultCode) : FaultMask := (FaultMask.ofCode lhs).xorCode rhs

end FaultCode

/-- The operations of fault masks, each overload picked by the kind of its operand. -/
def FaultMask.ops : FlagOps FaultCode FaultMask where
  set := FaultMask.set
  clear := FaultMask.clear
  reset := FaultMask.reset
  assignCode
    | .or => FaultMask.orAssignCode
    | .and => FaultMask.andAssignCode
    | .xor => FaultMask.xorAssignCode
  assignMask
    | .or => FaultMask.orAssignMask
    | .and => FaultMask.andAssignMask
    | .xor => FaultMask.xorAssignMask
  binCode
    | .or => FaultMask.orCode
    | .and => FaultMask.andCode
    | .xor => FaultMask.xorCode
  binMask
    | .or => FaultMask.orMask
    | .and => FaultMask.andMask
    | .xor => FaultMask.xorMask
  codes
    | .or => FaultCode.or
    | .and => FaultCode.and
    | .xor => FaultCode.xor
  compl := FaultMask.compl

inductive FaultMaskCtor
  | default
  | raw (word : BitVec 16)
  | code (c : FaultCode)
deriving DecidableEq, Repr

def FaultMaskCtor.make : FaultMaskCtor → FaultMask
  | .default => {}
  | .raw word => FaultMask.ofRaw word
  | .code c => FaultMask.ofCode c

end Bms.Types
