import Mathlib

/-!
# Programs over flag registers

Straight-line programs over registers that hold sets of flags: flags are raised, cleared and
combined bitwise, in place or into another register.  The carrier `M` of the registers is abstract,
so that the same program runs on machine words, on finite sets and on single bits; a map between two
carriers that respects every operation respects every run.
-/

namespace Bms.Reasoning

inductive BinOp
  | or
  | and
  | xor
deriving DecidableEq, Repr

def BinOp.denote {B : Type*} [BooleanAlgebra B] : BinOp → B → B → B
  | .or => fun a b => a ⊔ b
  | .and => fun a b => a ⊓ b
  | .xor => fun a b => symmDiff a b

-- A right operand: a flag code, or a register.
inductive Operand (κ V : Type*)
  | code (c : κ)
  | mask (x : V)
deriving DecidableEq, Repr

inductive Update (κ V : Type*)
  | set (c : κ)
  | clear (c : κ)
  | reset
  | assign (op : BinOp) (rhs : Operand κ V)
deriving DecidableEq, Repr

inductive ValueExpr (κ V : Type*)
  | bin (op : BinOp) (lhs : V) (rhs : Operand κ V)
  | codes (op : BinOp) (lhs rhs : κ)
  | compl (x : V)
deriving DecidableEq, Repr

inductive Stmt (κ V : Type*)
  | update (x : V) (u : Update κ V)
  | assign (x : V) (e : ValueExpr κ V)
deriving DecidableEq, Repr

/-- The operations of a carrier of flag registers. -/
structure FlagOps (κ M : Type*) where
  set : M → κ → M
  clear : M → κ → M
  reset : M → M
  assignCode : BinOp → M → κ → M
  assignMask : BinOp → M → M → M
  binCode : BinOp → M → κ → M
  binMask : BinOp → M → M → M
  codes : BinOp → κ → κ → M
  compl : M → M

namespace FlagOps

variable {κ M N V : Type*}

-- An update, its operand read in the registers `σ`.
def runUpdate (ops : FlagOps κ M) (σ : V → M) (m : M) : Update κ V → M
  | .set c => ops.set m c
  | .clear c => ops.clear m c
  | .reset => ops.reset m
  | .assign op (.code c) => ops.assignCode op m c
  | .assign op (.mask y) => ops.assignMask op m (σ y)

def evalValue (ops : FlagOps κ M) (σ : V → M) : ValueExpr κ V → M
  | .bin op x (.code c) => ops.binCode op (σ x) c
  | .bin op x (.mask y) => ops.binMask op (σ x) (σ y)
  | .codes op c d => ops.codes op c d
  | .compl x => ops.compl (σ x)

def exec [DecidableEq V] (ops : FlagOps κ M) (σ : V → M) : Stmt κ V → V → M
  | .update x u => Function.update σ x (ops.runUpdate σ (σ x) u)
  | .assign x e => Function.update σ x (ops.evalValue σ e)

def run [DecidableEq V] (ops : FlagOps κ M) (σ : V → M) (p : List (Stmt κ V)) : V → M :=
  p.foldl ops.exec σ

/-- The map `h` carries the operations of one carrier to those of another. -/
structure Hom (ops : FlagOps κ M) (ops' : FlagOps κ N) (h : M → N) : Prop where
  set : ∀ m c, h (ops.set m c) = ops'.set (h m) c
  clear : ∀ m c, h (ops.clear m c) = ops'.clear (h m) c
  reset : ∀ m, h (ops.reset m) = ops'.reset (h m)
  assignCode : ∀ op m c, h (ops.assignCode op m c) = ops'.assignCode op (h m) c
  assignMask : ∀ op m n, h (ops.assignMask op m n) = ops'.assignMask op (h m) (h n)
  binCode : ∀ op m c, h (ops.binCode op m c) = ops'.binCode op (h m) c
  binMask : ∀ op m n, h (ops.binMask op m n) = ops'.binMask op (h m) (h n)
  codes : ∀ op c d, h (ops.codes op c d) = ops'.codes op c d
  compl : ∀ m, h (ops.compl m) = ops'.compl (h m)

namespace Hom

variable {ops : FlagOps κ M} {ops' : FlagOps κ N} {h : M → N}

theorem comp {P : Type*} {ops'' : FlagOps κ P} {h' : N → P} (hom' : Hom ops' ops'' h')
    (hom : Hom ops ops' h) : Hom ops ops'' (h' ∘ h) where
  set m c := (congrArg h' (hom.set m c)).trans (hom'.set (h m) c)
  clear m c := (congrArg h' (hom.clear m c)).trans (hom'.clear (h m) c)
  reset m := (congrArg h' (hom.reset m)).trans (hom'.reset (h m))
  assignCode op m c := (congrArg h' (hom.assignCode op m c)).trans (hom'.assignCode op (h m) c)
  assignMask op m n :=
    (congrArg h' (hom.assignMask op m n)).trans (hom'.assignMask op (h m) (h n))
  binCode op m c := (congrArg h' (hom.binCode op m c)).trans (hom'.binCode op (h m) c)
  binMask op m n := (congrArg h' (hom.binMask op m n)).trans (hom'.binMask op (h m) (h n))
  codes op c d := (congrArg h' (hom.codes op c d)).trans (hom'.codes op c d)
  compl m := (congrArg h' (hom.compl m)).trans (hom'.compl (h m))

theorem runUpdate (hom : Hom ops ops' h) (σ : V → M) (m : M) (u : Update κ V) :
    h (ops.runUpdate σ m u) = ops'.runUpdate (h ∘ σ) (h m) u := by
  cases u with
  | set c => exact hom.set m c
  | clear c => exact hom.clear m c
  | reset => exact hom.reset m
  | assign op rhs =>
    cases rhs with
    | code c => exact hom.assignCode op m c
    | mask y => exact hom.assignMask op m (σ y)

theorem evalValue (hom : Hom ops ops' h) (σ : V → M) (e : ValueExpr κ V) :
    h (ops.evalValue σ e) = ops'.evalValue (h ∘ σ) e := by
  cases e with
  | bin op x rhs =>
    cases rhs with
    | code c => exact hom.binCode op (σ x) c
    | mask y => exact hom.binMask op (σ x) (σ y)
  | codes op c d => exact hom.codes op c d
  | compl x => exact hom.compl (σ x)

variable [DecidableEq V]

theorem exec (hom : Hom ops ops' h) (σ : V → M) (s : Stmt κ V) :
    h ∘ ops.exec σ s = ops'.exec (h ∘ σ) s := by
  cases s with
  | update x u =>
    show h ∘ Function.update σ x _ = Function.update (h ∘ σ) x _
    rw [Function.comp_update, hom.runUpdate]
    rfl
  | assign x e =>
    show h ∘ Function.update σ x _ = Function.update (h ∘ σ) x _
    rw [Function.comp_update, hom.evalValue]

theorem run (hom : Hom ops ops' h) (σ : V → M) (p : List (Stmt κ V)) :
    h ∘ ops.run σ p = ops'.run (h ∘ σ) p := by
  induction p generalizing σ with
  | nil => rfl
  | cons s p ih =>
    show h ∘ ops.run (ops.exec σ s) p = ops'.run (ops'.exec (h ∘ σ) s) p
    rw [ih, hom.exec]

end Hom

/-! ## Restricting the codes -/

-- The same operations, their codes given through `g`.
def comapCode {κ' : Type*} (ops : FlagOps κ M) (g : κ' → κ) : FlagOps κ' M where
  set m c := ops.set m (g c)
  clear m c := ops.clear m (g c)
  reset := ops.reset
  assignCode op m c := ops.assignCode op m (g c)
  assignMask := ops.assignMask
  binCode op m c := ops.binCode op m (g c)
  binMask := ops.binMask
  codes op c d := ops.codes op (g c) (g d)
  compl := ops.compl

theorem Hom.comapCode {κ' : Type*} {ops : FlagOps κ M} {ops' : FlagOps κ N} {h : M → N}
    (hom : Hom ops ops' h) (g : κ' → κ) : Hom (ops.comapCode g) (ops'.comapCode g) h where
  set m c := hom.set m (g c)
  clear m c := hom.clear m (g c)
  reset := hom.reset
  assignCode op m c := hom.assignCode op m (g c)
  assignMask := hom.assignMask
  binCode op m c := hom.binCode op m (g c)
  binMask := hom.binMask
  codes op c d := hom.codes op (g c) (g d)
  compl := hom.compl

/-! ## Boolean algebras as carriers -/

variable {B C : Type*} [BooleanAlgebra B] [BooleanAlgebra C]

/-- A Boolean algebra with an element for each flag code. -/
def ofCodes (code : κ → B) : FlagOps κ B where
  set m c := m ⊔ code c
  clear m c := m \ code c
  reset _ := ⊥
  assignCode op m c := op.denote m (code c)
  assignMask op m n := op.denote m n
  binCode op m c := op.denote m (code c)
  binMask op m n := op.denote m n
  codes op c d := op.denote (code c) (code d)
  compl m := mᶜ

theorem map_denote (f : BoundedLatticeHom B C) (op : BinOp) (a b : B) :
    f (op.denote a b) = op.denote (f a) (f b) := by
  cases op with
  | or => exact map_sup f a b
  | and => exact map_inf f a b
  | xor => exact map_symmDiff' f a b

theorem hom_ofCodes (f : BoundedLatticeHom B C) {code : κ → B} {code' : κ → C}
    (hcode : ∀ c, f (code c) = code' c) : Hom (ofCodes code) (ofCodes code') f where
  set m c := by
    show f (m ⊔ code c) = f m ⊔ code' c
    rw [map_sup, hcode]
  clear m c := by
    show f (m \ code c) = f m \ code' c
    rw [map_sdiff', hcode]
  reset m := map_bot f
  assignCode op m c := (map_denote f op m (code c)).trans (by rw [hcode]; rfl)
  assignMask op m n := map_denote f op m n
  binCode op m c := (map_denote f op m (code c)).trans (by rw [hcode]; rfl)
  binMask op m n := map_denote f op m n
  codes op c d := (map_denote f op (code c) (code d)).trans (by rw [hcode, hcode]; rfl)
  compl m := map_compl' f m

/-! ## Positions that no code mentions -/

def memHom {α : Type*} [Fintype α] [DecidableEq α] (a : α) : BoundedLatticeHom (Finset α) Bool where
  toFun s := decide (a ∈ s)
  map_sup' s t := by simp
  map_inf' s t := by simp
  map_top' := by simp
  map_bot' := by simp

/-- Where no code mentions `a`, a program acts on its membership as it acts on a single bit when
every code is empty. -/
theorem decide_mem_run {α : Type*} [Fintype α] [DecidableEq α] [DecidableEq V]
    {code : κ → Finset α} {a : α} (ha : ∀ c, a ∉ code c) (σ : V → Finset α)
    (hσ : ∀ x, a ∉ σ x) (p : List (Stmt κ V)) (x : V) :
    decide (a ∈ (ofCodes code).run σ p x) =
      (ofCodes fun _ => (⊥ : Bool)).run (fun _ => ⊥) p x := by
  have hcode : ∀ c, memHom a (code c) = ⊥ := fun c => decide_eq_false (ha c)
  have hstart : (memHom a : Finset α → Bool) ∘ σ = fun _ => ⊥ := by
    funext y
    exact decide_eq_false (hσ y)
  have hrun := (hom_ofCodes (memHom a) hcode).run σ p
  rw [hstart] at hrun
  exact congrFun hrun x

theorem denote_bot (op : BinOp) : op.denote (⊥ : B) ⊥ = ⊥ := by
  cases op with
  | or => exact sup_bot_eq ⊥
  | and => exact inf_bot_eq ⊥
  | xor => exact symmDiff_self ⊥

theorem exec_bot [DecidableEq V] (s : Stmt κ V) (hs : ∀ x y, s ≠ .assign x (.compl y)) :
    (ofCodes fun _ : κ => (⊥ : B)).exec (fun _ => ⊥) s = fun _ => ⊥ := by
  cases s with
  | update x u =>
    show Function.update (fun _ => ⊥) x _ = fun _ => ⊥
    apply Function.update_eq_self_iff.mpr
    cases u with
    | set c => exact sup_bot_eq ⊥
    | clear c => exact sdiff_self
    | reset => rfl
    | assign op rhs => cases rhs <;> exact denote_bot op
  | assign x e =>
    show Function.update (fun _ => ⊥) x _ = fun _ => ⊥
    apply Function.update_eq_self_iff.mpr
    cases e with
    | bin op y rhs => cases rhs <;> exact denote_bot op
    | codes op c d => exact denote_bot op
    | compl y => exact absurd rfl (hs x y)

-- With empty codes and empty registers, only a complement makes a register non-empty.
theorem run_bot [DecidableEq V] (p : List (Stmt κ V)) (hp : ∀ x y, Stmt.assign x (.compl y) ∉ p) :
    (ofCodes fun _ => (⊥ : B)).run (fun _ => ⊥) p = fun _ => ⊥ := by
  induction p with
  | nil => rfl
  | cons s p ih =>
    have hs : ∀ x y, s ≠ .assign x (.compl y) := by
      intro x y h
      apply hp x y
      rw [h]
      exact List.mem_cons_self
    show (ofCodes fun _ => (⊥ : B)).run ((ofCodes fun _ : κ => (⊥ : B)).exec (fun _ => ⊥) s) p = _
    rw [exec_bot s hs, ih fun x y h => hp x y (List.mem_cons_of_mem s h)]

end FlagOps

end Bms.Reasoning
