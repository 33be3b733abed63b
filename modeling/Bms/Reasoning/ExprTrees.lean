import Mathlib

/-!
# Expression trees

Trees of unary and binary operators over a signature that is left open, evaluated in any carrier.  A
map between two carriers that respects the operators respects every tree.  Rewriting with a set of
rules at any nodes keeps the value wherever the rules themselves do.
-/

namespace Bms.Reasoning

inductive ExprTree (L U B : Type*)
  | leaf (l : L)
  | unary (u : U) (e : ExprTree L U B)
  | binary (b : B) (e e' : ExprTree L U B)
deriving DecidableEq, Repr

/-- A reading of the signature in the carrier `M`. -/
structure TreeOps (L U B M : Type*) where
  leaf : L → M
  unary : U → M → M
  binary : B → M → M → M

variable {L U B M N : Type*}

namespace TreeOps

def eval (ops : TreeOps L U B M) : ExprTree L U B → M
  | .leaf l => ops.leaf l
  | .unary u e => ops.unary u (ops.eval e)
  | .binary b e e' => ops.binary b (ops.eval e) (ops.eval e')

/-- The map `h` carries one reading of the signature to another. -/
structure Hom (ops : TreeOps L U B M) (ops' : TreeOps L U B N) (h : M → N) : Prop where
  leaf : ∀ l, h (ops.leaf l) = ops'.leaf l
  unary : ∀ u m, h (ops.unary u m) = ops'.unary u (h m)
  binary : ∀ b m n, h (ops.binary b m n) = ops'.binary b (h m) (h n)

theorem Hom.eval {ops : TreeOps L U B M} {ops' : TreeOps L U B N} {h : M → N}
    (hom : Hom ops ops' h) (e : ExprTree L U B) : h (ops.eval e) = ops'.eval e := by
  induction e with
  | leaf l => exact hom.leaf l
  | unary u e ih =>
    show h (ops.unary u (ops.eval e)) = ops'.unary u (ops'.eval e)
    rw [hom.unary, ih]
  | binary b e e' ih ih' =>
    show h (ops.binary b (ops.eval e) (ops.eval e')) = ops'.binary b (ops'.eval e) (ops'.eval e')
    rw [hom.binary, ih, ih']

end TreeOps

/-! ## Rewriting -/

/-- The tree `e` becomes `e'` by rewriting with the rules `R`, either way, at any nodes. -/
inductive Rewritten (R : ExprTree L U B → ExprTree L U B → Prop) :
    ExprTree L U B → ExprTree L U B → Prop
  | rule {e e' : ExprTree L U B} : R e e' → Rewritten R e e'
  | refl (e : ExprTree L U B) : Rewritten R e e
  | symm {e e' : ExprTree L U B} : Rewritten R e e' → Rewritten R e' e
  | trans {e e' e'' : ExprTree L U B} :
      Rewritten R e e' → Rewritten R e' e'' → Rewritten R e e''
  | unary (u : U) {e e' : ExprTree L U B} :
      Rewritten R e e' → Rewritten R (.unary u e) (.unary u e')
  | binary (b : B) {e e' f f' : ExprTree L U B} :
      Rewritten R e e' → Rewritten R f f' → Rewritten R (.binary b e f) (.binary b e' f')

namespace Rewritten

variable {R : ExprTree L U B → ExprTree L U B → Prop} {e e' : ExprTree L U B}

theorem eval_eq {ops : TreeOps L U B M} (hR : ∀ e e', R e e' → ops.eval e = ops.eval e')
    (h : Rewritten R e e') : ops.eval e = ops.eval e' := by
  induction h with
  | rule h => exact hR _ _ h
  | refl e => rfl
  | symm _ ih => exact ih.symm
  | trans _ _ ih ih' => exact ih.trans ih'
  | unary u _ ih => exact congrArg (ops.unary u) ih
  | binary b _ _ ih ih' => exact congrArg₂ (ops.binary b) ih ih'

-- Rules that hold in every view of a carrier hold in the carrier, when the views tell it apart.
theorem eval_eq_of_views {ι : Type*} {ops : TreeOps L U B M} {ops' : ι → TreeOps L U B N}
    {view : ι → M → N} (hview : ∀ m n, (∀ i, view i m = view i n) → m = n)
    (hom : ∀ i, ops.Hom (ops' i) (view i))
    (hR : ∀ i e e', R e e' → (ops' i).eval e = (ops' i).eval e') (h : Rewritten R e e') :
    ops.eval e = ops.eval e' := by
  apply hview
  intro i
  rw [(hom i).eval, (hom i).eval]
  exact h.eval_eq (hR i)

end Rewritten

end Bms.Reasoning
