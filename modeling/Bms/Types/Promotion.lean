import Bms.Reasoning.FlagPrograms
import Bms.Reasoning.WordBits

/-!
# Integral promotion

Operands of type `uint8_t` and `uint16_t` are promoted to a 32-bit `int` before a bitwise operator
is applied, and the result is cast back.  Complement leaves a negative `int` behind, so the cast is
where the high bits go.
-/

open Bms.Reasoning

namespace Bms.Types

variable {w : ℕ}

/-- The value-preserving promotion of an unsigned integer narrower than `int`. -/
def promote (x : BitVec w) : BitVec 32 := x.setWidth 32

-- The cast of an `int` to an unsigned integer of `w` bits, modulo `2 ^ w`.
def castTo (w : ℕ) (x : BitVec 32) : BitVec w := x.setWidth w

-- A bitwise operator between two unsigned integers, cast back to their type.
def promoted (op : BitVec 32 → BitVec 32 → BitVec 32) (lhs rhs : BitVec w) : BitVec w :=
  castTo w (op (promote lhs) (promote rhs))

-- A promoted value survives the cast back, and the cast respects the bitwise operators.
theorem castTo_promote (hw : w ≤ 32) (x : BitVec w) : castTo w (promote x) = x :=
  (BitVec.setWidth_setWidth_of_le x hw).trans (BitVec.setWidth_eq x)

theorem promoted_or (hw : w ≤ 32) (x y : BitVec w) : promoted (· ||| ·) x y = x ||| y := by
  have hcast : promoted (· ||| ·) x y = castTo w (promote x) ||| castTo w (promote y) :=
    BitVec.setWidth_or
  rw [hcast, castTo_promote hw, castTo_promote hw]

theorem promoted_and (hw : w ≤ 32) (x y : BitVec w) : promoted (· &&& ·) x y = x &&& y := by
  have hcast : promoted (· &&& ·) x y = castTo w (promote x) &&& castTo w (promote y) :=
    BitVec.setWidth_and
  rw [hcast, castTo_promote hw, castTo_promote hw]

theorem promoted_xor (hw : w ≤ 32) (x y : BitVec w) : promoted (· ^^^ ·) x y = x ^^^ y := by
  have hcast : promoted (· ^^^ ·) x y = castTo w (promote x) ^^^ castTo w (promote y) :=
    BitVec.setWidth_xor
  rw [hcast, castTo_promote hw, castTo_promote hw]

-- The complement of the promoted value is negative; the cast keeps its low bits only.
theorem castTo_not_promote (hw : w ≤ 32) (x : BitVec w) : castTo w (~~~promote x) = ~~~x := by
  have hcast : castTo w (~~~promote x) = ~~~castTo w (promote x) := BitVec.setWidth_not hw
  rw [hcast, castTo_promote hw]

def intOp : BinOp → BitVec 32 → BitVec 32 → BitVec 32
  | .or => (· ||| ·)
  | .and => (· &&& ·)
  | .xor => (· ^^^ ·)

theorem positions_promoted (hw : w ≤ 32) (op : BinOp) (x y : BitVec w) :
    positions (promoted (intOp op) x y) = op.denote (positions x) (positions y) := by
  cases op with
  | or => exact (congrArg positions (promoted_or hw x y)).trans (positions_or x y)
  | and => exact (congrArg positions (promoted_and hw x y)).trans (positions_and x y)
  | xor => exact (congrArg positions (promoted_xor hw x y)).trans (positions_xor x y)

theorem promote_and_promote (x y : BitVec w) : promote x &&& promote y = promote (x &&& y) :=
  BitVec.setWidth_and.symm

theorem promote_injective (hw : w ≤ 32) : Function.Injective (promote : BitVec w → BitVec 32) :=
  Function.LeftInverse.injective (castTo_promote hw)

theorem promote_inj (hw : w ≤ 32) {x y : BitVec w} : promote x = promote y ↔ x = y :=
  (promote_injective hw).eq_iff

@[simp] theorem promote_zero : promote 0#w = 0#32 := by
  unfold promote
  exact BitVec.setWidth_zero ..

theorem promote_and_ne_zero (hw : w ≤ 32) (x y : BitVec w) :
    promote x &&& promote y ≠ 0#32 ↔ x &&& y ≠ 0#w := by
  rw [promote_and_promote, ← promote_zero, ne_eq, promote_inj hw]

-- Clearing bits: the complement is cast back before the second promotion.
theorem promoted_and_not (hw : w ≤ 32) (x y : BitVec w) :
    promoted (· &&& ·) x (castTo w (~~~promote y)) = x &&& ~~~y := by
  rw [castTo_not_promote hw, promoted_and hw]

theorem promote_test_iff (hw : w ≤ 32) (x y : BitVec w) :
    (promote x &&& promote y != 0#32) = true ↔ (positions x ∩ positions y).Nonempty := by
  rw [bne_iff_ne, promote_and_ne_zero hw, and_ne_zero_iff]

theorem promote_test_atBit (hw : w ≤ 32) (x : BitVec w) (i : Fin w) :
    (promote x &&& promote (1#w <<< i.val) != 0#32) = x.getLsbD i := by
  rw [Bool.eq_iff_iff, promote_test_iff hw, positions_shiftLeft_one, ← mem_positions,
    ← Finset.not_disjoint_iff_nonempty_inter, Finset.disjoint_singleton_right, not_not]

end Bms.Types
