import Bms.FaultMasks.Expressions
import Bms.Telemetry.ValidityMasks

/-!
# Expressions over validity masks

The operators of `ValidityMask` take a flag on the right, so an expression is a chain of operators on
one mask.  As for fault masks, its bits are the Boolean formula of the chain, and all ways of writing
an operator agree.
-/

open Bms.Reasoning Bms.Types Bms.FaultMasks

namespace Bms.Telemetry

inductive ValidityLeaf
  | mask (m : ValidityMask)
  | convert (v : MetricValidity)
deriving DecidableEq, Repr

-- The last four update a copy of the operand in place.
inductive ValidityUnary
  | or (rhs : MetricValidity)
  | and (rhs : MetricValidity)
  | compl
  | orAssign (rhs : MetricValidity)
  | andAssign (rhs : MetricValidity)
  | set (v : MetricValidity)
  | clear (v : MetricValidity)
deriving DecidableEq, Repr

-- No operator takes two masks.
abbrev ValidityExpr := ExprTree ValidityLeaf ValidityUnary Empty

def validityOps : TreeOps ValidityLeaf ValidityUnary Empty ValidityMask where
  leaf
    | .mask m => m
    | .convert v => .ofFlag v
  unary
    | .or v => fun m => m.orFlag v
    | .and v => fun m => m.andFlag v
    | .compl => ValidityMask.compl
    | .orAssign v => fun m => m.orAssign v
    | .andAssign v => fun m => m.andAssign v
    | .set v => fun m => m.set v
    | .clear v => fun m => m.clear v
  binary := nofun

def evalValidity : ValidityExpr → ValidityMask := validityOps.eval

def validityBit (m : ValidityMask) (i : Fin 8) : Bool := m.mask.getLsbD i

def flagBit (i : Fin 8) (v : MetricValidity) : Bool := v.value.getLsbD i

-- The Boolean connectives of the nodes on the `i`-th bits of the leaves.
def validityBitOps (i : Fin 8) : TreeOps ValidityLeaf ValidityUnary Empty Bool where
  leaf
    | .mask m => validityBit m i
    | .convert v => flagBit i v
  unary
    | .or v => fun b => b || flagBit i v
    | .and v => fun b => b && flagBit i v
    | .compl => fun b => !b
    | .orAssign v => fun b => b || flagBit i v
    | .andAssign v => fun b => b && flagBit i v
    | .set v => fun b => b || flagBit i v
    | .clear v => fun b => b && !flagBit i v
  binary := nofun

/-! ## One bit of a chain -/

theorem eq_of_validityBit {m n : ValidityMask} (h : ∀ i, validityBit m i = validityBit n i) :
    m = n := by
  cases m
  cases n
  exact congrArg ValidityMask.mk (eq_of_getLsbD h)

theorem flagBit_compl (i : Fin 8) (v : MetricValidity) :
    flagBit i ⟨(ValidityMask.ofFlag v).compl.rawValue⟩ = !flagBit i v := by
  show (castTo 8 (~~~promote v.value)).getLsbD i = !v.value.getLsbD i
  rw [castTo_not_promote (by decide)]
  simp

theorem hom_validityBitOps (i : Fin 8) :
    validityOps.Hom (validityBitOps i) fun m => validityBit m i where
  leaf l := by
    cases l with
    | mask m => rfl
    | convert v => rfl
  unary u m := by
    cases u with
    | or v | orAssign v | set v =>
      show (promoted (· ||| ·) m.mask v.value).getLsbD i = (validityBit m i || flagBit i v)
      rw [promoted_or (by decide)]
      exact BitVec.getLsbD_or
    | and v | andAssign v =>
      show (promoted (· &&& ·) m.mask v.value).getLsbD i = (validityBit m i && flagBit i v)
      rw [promoted_and (by decide)]
      exact BitVec.getLsbD_and
    | compl =>
      show (castTo 8 (~~~promote m.mask)).getLsbD i = !validityBit m i
      rw [castTo_not_promote (by decide)]
      simp [validityBit]
    | clear v =>
      show (promoted (· &&& ·) m.mask (castTo 8 (~~~promote v.value))).getLsbD i =
        (validityBit m i && !flagBit i v)
      rw [promoted_and_not (by decide)]
      simp [validityBit, flagBit]
  binary b := b.elim

theorem validityBit_evalValidity (e : ValidityExpr) (i : Fin 8) :
    validityBit (evalValidity e) i = (validityBitOps i).eval e := (hom_validityBitOps i).eval e

/-! ## Ways of writing a node -/

inductive ValidityRule : ValidityExpr → ValidityExpr → Prop
  | orAssign (v : MetricValidity) (e : ValidityExpr) :
      ValidityRule (.unary (.or v) e) (.unary (.orAssign v) e)
  | andAssign (v : MetricValidity) (e : ValidityExpr) :
      ValidityRule (.unary (.and v) e) (.unary (.andAssign v) e)
  | set (v : MetricValidity) (e : ValidityExpr) :
      ValidityRule (.unary (.or v) e) (.unary (.set v) e)
  -- A complemented mask is no operand, so its raw value is cast to a flag.
  | clear (v : MetricValidity) (e : ValidityExpr) :
      ValidityRule (.unary (.and ⟨(ValidityMask.ofFlag v).compl.rawValue⟩) e) (.unary (.clear v) e)
  -- The same without a cast.
  | clearCompl (v : MetricValidity) (e : ValidityExpr) :
      ValidityRule (.unary .compl (.unary (.or v) (.unary .compl e))) (.unary (.clear v) e)

theorem ValidityRule.eval_eq (i : Fin 8) (e e' : ValidityExpr) (h : ValidityRule e e') :
    (validityBitOps i).eval e = (validityBitOps i).eval e' := by
  cases h with
  | orAssign v e => rfl
  | andAssign v e => rfl
  | set v e => rfl
  | clear v e => exact congrArg ((validityBitOps i).eval e && ·) (flagBit_compl i v)
  | clearCompl v e =>
    show (!(!(validityBitOps i).eval e || flagBit i v)) =
      ((validityBitOps i).eval e && !flagBit i v)
    rw [Bool.not_or, Bool.not_not]

/-- **All ways of writing a mask expression agree.**  Each bit of the value of a tree is the Boolean
formula of the tree on the bits of its leaves; and converting code operands, assigning on a copy,
`set` and `clear` can replace one another at any nodes. -/
theorem maskExpr_agree :
    (∀ (e : MaskExpr) (i : Fin 16), maskBit (evalMask e) i = (bitOps i).eval e) ∧
    (∀ e e' : MaskExpr, Rewritten MaskRule e e' → evalMask e = evalMask e') ∧
    (∀ (e : ValidityExpr) (i : Fin 8), validityBit (evalValidity e) i = (validityBitOps i).eval e) ∧
    ∀ e e' : ValidityExpr, Rewritten ValidityRule e e' → evalValidity e = evalValidity e' := by
  refine ⟨maskBit_evalMask, fun e e' => evalMask_rewritten, validityBit_evalValidity, ?_⟩
  intro e e' h
  exact h.eval_eq_of_views (fun _ _ => eq_of_validityBit) hom_validityBitOps ValidityRule.eval_eq

-- `(OVP | UVP) & ~FaultMask(OVP)`, built in place on a copy.
theorem maskExpr_agree_inPlace :
    evalMask (.binary (.mask .and) (.leaf (.codes .or .ovp .uvp))
        (.unary .compl (.leaf (.convert .ovp)))) =
      evalMask (.unary (.clear .ovp) (.unary (.set .uvp) (.leaf (.convert .ovp)))) := by
  apply maskExpr_agree.2.1
  apply Rewritten.trans (.rule (.clear .ovp _))
  apply Rewritten.unary
  exact .trans (.rule (.convertLhs .or .ovp .uvp)) (.rule (.set .uvp _))

end Bms.Telemetry
