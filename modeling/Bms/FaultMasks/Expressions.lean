import Bms.FaultMasks.Refinement
import Bms.Reasoning.ExprTrees

/-!
# Expressions over fault codes and fault masks

A mask expression combines codes and masks by the value operators, each node with an overload of its
own; the same value can be built in place on a copy.  Every node acts on each of the sixteen bits as
one Boolean connective, so the bits of the result are the Boolean formula of the tree, and all ways
of writing a node agree.
-/

open Bms.Reasoning Bms.Types

namespace Bms.FaultMasks

/-! ## Trees -/

-- Codes are no masks: they become one by the converting constructor or by a free operator.
inductive MaskLeaf
  | mask (m : FaultMask)
  | convert (c : FaultCode)
  | codes (op : BinOp) (lhs rhs : FaultCode)
deriving DecidableEq, Repr

-- The last three update a copy of the operand in place.
inductive MaskUnary
  | code (op : BinOp) (rhs : FaultCode)
  | compl
  | assignCode (op : BinOp) (rhs : FaultCode)
  | set (c : FaultCode)
  | clear (c : FaultCode)
deriving DecidableEq, Repr

inductive MaskBinary
  | mask (op : BinOp)
  | assignMask (op : BinOp)
deriving DecidableEq, Repr

abbrev MaskExpr := ExprTree MaskLeaf MaskUnary MaskBinary

/-- The reading of a tree in a carrier of flag registers. -/
def exprOps {M : Type*} (ops : FlagOps FaultCode M) (mask : FaultMask → M) (convert : FaultCode → M) :
    TreeOps MaskLeaf MaskUnary MaskBinary M where
  leaf
    | .mask m => mask m
    | .convert c => convert c
    | .codes op c d => ops.codes op c d
  unary
    | .code op c => fun m => ops.binCode op m c
    | .compl => ops.compl
    | .assignCode op c => fun m => ops.assignCode op m c
    | .set c => fun m => ops.set m c
    | .clear c => fun m => ops.clear m c
  binary
    | .mask op => ops.binMask op
    | .assignMask op => ops.assignMask op

-- The value of a tree, by the overloads of the class.
def evalMask : MaskExpr → FaultMask := (exprOps FaultMask.ops id FaultMask.ofCode).eval

def codeBit (i : Fin 16) (c : FaultCode) : Bool := c.value.getLsbD i

-- The Boolean connectives of the nodes on the `i`-th bits of the leaves.
def bitOps (i : Fin 16) : TreeOps MaskLeaf MaskUnary MaskBinary Bool :=
  exprOps (FlagOps.ofCodes (codeBit i)) (fun m => maskBit m i) (codeBit i)

def connective : BinOp → Bool → Bool → Bool
  | .or => fun a b => a || b
  | .and => fun a b => a && b
  | .xor => fun a b => a ^^ b

-- The Boolean formula of a tree on the `i`-th bits of its leaves.
def formula (i : Fin 16) : MaskExpr → Bool
  | .leaf (.mask m) => maskBit m i
  | .leaf (.convert c) => codeBit i c
  | .leaf (.codes op c d) => connective op (codeBit i c) (codeBit i d)
  | .unary (.code op c) e => connective op (formula i e) (codeBit i c)
  | .unary .compl e => !formula i e
  | .unary (.assignCode op c) e => connective op (formula i e) (codeBit i c)
  | .unary (.set c) e => formula i e || codeBit i c
  | .unary (.clear c) e => formula i e && !codeBit i c
  | .binary (.mask op) e e' => connective op (formula i e) (formula i e')
  | .binary (.assignMask op) e e' => connective op (formula i e) (formula i e')

theorem denote_eq_connective (op : BinOp) (a b : Bool) : op.denote a b = connective op a b := by
  cases op <;> cases a <;> cases b <;> rfl

theorem eval_bitOps (i : Fin 16) (e : MaskExpr) : (bitOps i).eval e = formula i e := by
  induction e with
  | leaf l =>
    cases l with
    | mask m => rfl
    | convert c => rfl
    | codes op c d => exact denote_eq_connective op _ _
  | unary u e ih =>
    show (bitOps i).unary u ((bitOps i).eval e) = _
    rw [ih]
    cases u with
    | code op c => exact denote_eq_connective op _ _
    | compl => rfl
    | assignCode op c => exact denote_eq_connective op _ _
    | set c => rfl
    | clear c => rfl
  | binary b e e' ih ih' =>
    show (bitOps i).binary b ((bitOps i).eval e) ((bitOps i).eval e') = _
    rw [ih, ih']
    cases b with
    | mask op => exact denote_eq_connective op _ _
    | assignMask op => exact denote_eq_connective op _ _

/-! ## One bit of a tree -/

theorem exprOps_hom {M N : Type*} {ops : FlagOps FaultCode M} {ops' : FlagOps FaultCode N}
    {h : M → N} (hom : ops.Hom ops' h) {mask : FaultMask → M} {mask' : FaultMask → N}
    {convert : FaultCode → M} {convert' : FaultCode → N} (hmask : ∀ m, h (mask m) = mask' m)
    (hconvert : ∀ c, h (convert c) = convert' c) :
    (exprOps ops mask convert).Hom (exprOps ops' mask' convert') h where
  leaf l := by
    cases l with
    | mask m => exact hmask m
    | convert c => exact hconvert c
    | codes op c d => exact hom.codes op c d
  unary u m := by
    cases u with
    | code op c => exact hom.binCode op m c
    | compl => exact hom.compl m
    | assignCode op c => exact hom.assignCode op m c
    | set c => exact hom.set m c
    | clear c => exact hom.clear m c
  binary b m n := by
    cases b with
    | mask op => exact hom.binMask op m n
    | assignMask op => exact hom.assignMask op m n

theorem memHom_bits (i : Fin 16) (c : FaultCode) : FlagOps.memHom i c.bits = codeBit i c := by
  show decide (i ∈ positions c.value) = c.value.getLsbD i
  rw [Bool.eq_iff_iff, decide_eq_true_iff]
  exact mem_positions

-- Reading one bit of a mask respects every operation of the class.
theorem hom_maskBit (i : Fin 16) :
    FaultMask.ops.Hom (FlagOps.ofCodes (codeBit i)) fun m => maskBit m i := by
  have hcomp := (FlagOps.hom_ofCodes (FlagOps.memHom i) (memHom_bits i)).comp FaultMask.hom_bits
  have hview : (fun m => maskBit m i) = FlagOps.memHom i ∘ FaultMask.bits := by
    funext m
    exact maskBit_eq_decide m i
  rw [hview]
  exact hcomp

theorem hom_bitOps (i : Fin 16) :
    (exprOps FaultMask.ops id FaultMask.ofCode).Hom (bitOps i) fun m => maskBit m i :=
  exprOps_hom (hom_maskBit i) (fun _ => rfl) fun _ => rfl

theorem maskBit_evalMask (e : MaskExpr) (i : Fin 16) : maskBit (evalMask e) i = (bitOps i).eval e :=
  (hom_bitOps i).eval e

/-! ## Ways of writing a node -/

inductive MaskRule : MaskExpr → MaskExpr → Prop
  -- A code operand as a converted mask.
  | convertLhs (op : BinOp) (c d : FaultCode) :
      MaskRule (.leaf (.codes op c d)) (.unary (.code op d) (.leaf (.convert c)))
  | convertRhs (op : BinOp) (c : FaultCode) (e : MaskExpr) :
      MaskRule (.unary (.code op c) e) (.binary (.mask op) e (.leaf (.convert c)))
  | convertAssigned (op : BinOp) (c : FaultCode) (e : MaskExpr) :
      MaskRule (.unary (.assignCode op c) e) (.binary (.assignMask op) e (.leaf (.convert c)))
  -- A value operator as the compound assignment on a copy.
  | assignCode (op : BinOp) (c : FaultCode) (e : MaskExpr) :
      MaskRule (.unary (.code op c) e) (.unary (.assignCode op c) e)
  | assignMask (op : BinOp) (e e' : MaskExpr) :
      MaskRule (.binary (.mask op) e e') (.binary (.assignMask op) e e')
  -- The named operations.
  | set (c : FaultCode) (e : MaskExpr) : MaskRule (.unary (.code .or c) e) (.unary (.set c) e)
  | clear (c : FaultCode) (e : MaskExpr) :
      MaskRule (.binary (.mask .and) e (.unary .compl (.leaf (.convert c)))) (.unary (.clear c) e)

theorem MaskRule.eval_eq (i : Fin 16) (e e' : MaskExpr) (h : MaskRule e e') :
    (bitOps i).eval e = (bitOps i).eval e' := by
  cases h with
  | convertLhs op c d => rfl
  | convertRhs op c e => rfl
  | convertAssigned op c e => rfl
  | assignCode op c e => rfl
  | assignMask op e e' => rfl
  | set c e => rfl
  | clear c e =>
    show (bitOps i).eval e ⊓ (codeBit i c)ᶜ = (bitOps i).eval e \ codeBit i c
    exact sdiff_eq.symm

theorem evalMask_rewritten {e e' : MaskExpr} (h : Rewritten MaskRule e e') :
    evalMask e = evalMask e' :=
  h.eval_eq_of_views (fun _ _ => eq_of_maskBit) hom_bitOps MaskRule.eval_eq

end Bms.FaultMasks
