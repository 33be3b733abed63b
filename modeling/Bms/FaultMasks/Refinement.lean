import Bms.Types.FaultMasks

/-!
# Fault masks are sets of bit positions

A fault mask stands for the set of the positions of its one bits.  Every operation of the class is
the set operation of the same name, so a program over masks runs in lock step with the same program
over sets, and the queries answer for the set.
-/

open Bms.Reasoning

namespace Bms.Types

/-- The set of positions that a mask stands for. -/
def FaultMask.bits (m : FaultMask) : Finset (Fin 16) := positions m.mask

namespace FaultMask

theorem bits_injective : Function.Injective FaultMask.bits := by
  intro m n h
  have hmask : m.mask = n.mask := positions_injective h
  cases m
  cases n
  exact congrArg FaultMask.mk hmask

/-! ## Operations -/

theorem bits_set (m : FaultMask) (c : FaultCode) : (m.set c).bits = m.bits ∪ c.bits := by
  unfold bits set
  rw [promoted_or (by decide), positions_or]
  rfl

theorem bits_clear (m : FaultMask) (c : FaultCode) : (m.clear c).bits = m.bits \ c.bits := by
  unfold bits clear
  rw [promoted_and_not (by decide), positions_and, positions_not, ← Finset.sdiff_eq_inter_compl]
  rfl

theorem bits_reset (m : FaultMask) : m.reset.bits = ∅ := positions_zero

theorem bits_compl (m : FaultMask) : m.compl.bits = m.bitsᶜ := by
  unfold bits compl ofRaw
  rw [castTo_not_promote (by decide), positions_not]

-- Every overload of the binary operators is the promoted operator on its two words.

theorem assignCode_eq (op : BinOp) (m : FaultMask) (c : FaultCode) :
    ops.assignCode op m c = ⟨promoted (intOp op) m.mask c.value⟩ := by
  cases op <;> rfl

theorem assignMask_eq (op : BinOp) (m n : FaultMask) :
    ops.assignMask op m n = ⟨promoted (intOp op) m.mask n.mask⟩ := by
  cases op <;> rfl

theorem binCode_eq (op : BinOp) (m : FaultMask) (c : FaultCode) :
    ops.binCode op m c = ⟨promoted (intOp op) m.mask c.value⟩ := by
  cases op <;> rfl

theorem binMask_eq (op : BinOp) (m n : FaultMask) :
    ops.binMask op m n = ⟨promoted (intOp op) m.mask n.mask⟩ := by
  cases op <;> rfl

theorem codes_eq (op : BinOp) (c d : FaultCode) :
    ops.codes op c d = ⟨promoted (intOp op) c.value d.value⟩ := by
  cases op <;> rfl

theorem bits_promoted (op : BinOp) (x y : BitVec 16) :
    FaultMask.bits ⟨promoted (intOp op) x y⟩ = op.denote (positions x) (positions y) :=
  positions_promoted (by decide) op x y

-- Reading a mask as a set respects every operation of the class.
theorem hom_bits : ops.Hom (FlagOps.ofCodes FaultCode.bits) FaultMask.bits where
  set := bits_set
  clear := bits_clear
  reset := bits_reset
  assignCode op m c := by rw [assignCode_eq, bits_promoted]; rfl
  assignMask op m n := by rw [assignMask_eq, bits_promoted]; rfl
  binCode op m c := by rw [binCode_eq, bits_promoted]; rfl
  binMask op m n := by rw [binMask_eq, bits_promoted]; rfl
  codes op c d := by rw [codes_eq, bits_promoted]; rfl
  compl := bits_compl

/-! ## Queries -/

theorem has_iff (m : FaultMask) (c : FaultCode) :
    m.has c = true ↔ (m.bits ∩ c.bits).Nonempty := promote_test_iff (by decide) m.mask c.value

theorem any_iff (m : FaultMask) : m.any = true ↔ m.bits.Nonempty := by
  unfold any
  rw [bne_iff_ne, ← promote_zero, ne_eq, promote_inj (by decide), ← ne_eq, ← positions_nonempty]
  rfl

theorem isEmpty_iff (m : FaultMask) : m.isEmpty = true ↔ m.bits = ∅ := by
  unfold isEmpty
  rw [beq_iff_eq, ← promote_zero, promote_inj (by decide), ← positions_eq_empty]
  rfl

theorem rawValue_eq (m : FaultMask) : m.rawValue = bitImage m.bits :=
  (bitImage_positions m.mask).symm

-- At most sixteen bits are counted, so the cast to `uint8_t` loses nothing.
theorem toNat_count (m : FaultMask) : m.count.toNat = m.bits.card := by
  have hcard : (promote m.mask).cpop.toNat = m.bits.card := toNat_cpop_setWidth m.mask (by decide)
  have hle : m.bits.card ≤ 16 := card_positions_le m.mask
  unfold count castTo
  rw [BitVec.toNat_setWidth, hcard]
  omega

theorem opEq_iff (m n : FaultMask) : m.opEq n = true ↔ m.bits = n.bits := by
  unfold opEq
  rw [beq_iff_eq, promote_inj (by decide)]
  exact positions_inj.symm

theorem opNe_iff (m n : FaultMask) : m.opNe n = true ↔ m.bits ≠ n.bits := by
  unfold opNe
  rw [bne_iff_ne, ne_eq, promote_inj (by decide)]
  exact not_congr positions_inj.symm

end FaultMask

/-! ## The named flags -/

def FaultCode.atBit (i : Fin 16) : FaultCode := ⟨1#16 <<< i.val⟩

-- The bit positions of the named flags, in the order of `FaultCode.flags`.
def namedPositions : List (Fin 16) := [0, 1, 2, 3, 4, 5, 6, 7, 8, 9]

theorem flags_eq_map : FaultCode.flags = namedPositions.map FaultCode.atBit := by decide

theorem FaultCode.bits_atBit (i : Fin 16) : (FaultCode.atBit i).bits = {i} :=
  positions_shiftLeft_one i

theorem FaultMask.has_atBit (m : FaultMask) (i : Fin 16) :
    m.has (FaultCode.atBit i) = decide (i ∈ m.bits) := by
  have htest : m.has (FaultCode.atBit i) = m.mask.getLsbD i := promote_test_atBit (by decide) m.mask i
  rw [htest, Bool.eq_iff_iff, decide_eq_true_iff]
  exact mem_positions.symm

def FaultMaskCtor.bits : FaultMaskCtor → Finset (Fin 16)
  | .default => ∅
  | .raw word => positions word
  | .code c => c.bits

theorem FaultMaskCtor.bits_make (k : FaultMaskCtor) : k.make.bits = k.bits := by
  cases k with
  | default => exact positions_zero
  | raw word => rfl
  | code c => rfl

end Bms.Types

namespace Bms.FaultMasks

open Bms.Types

variable {V : Type}

/-! ## One bit -/

def maskBit (m : FaultMask) (i : Fin 16) : Bool := m.mask.getLsbD i

theorem maskBit_eq_decide (m : FaultMask) (i : Fin 16) : maskBit m i = decide (i ∈ m.bits) := by
  rw [Bool.eq_iff_iff, decide_eq_true_iff]
  exact mem_positions.symm

theorem eq_of_maskBit {m n : FaultMask} (h : ∀ i, maskBit m i = maskBit n i) : m = n := by
  apply FaultMask.bits_injective
  ext i
  have hi := h i
  rwa [maskBit_eq_decide, maskBit_eq_decide, decide_eq_decide] at hi

/-! ## One update in place -/

def operandBits : Operand FaultCode FaultMask → Finset (Fin 16)
  | .code c => c.bits
  | .mask m => m.bits

theorem bits_runUpdate (m : FaultMask) (u : Update FaultCode FaultMask) :
    (FaultMask.ops.runUpdate id m u).bits =
      match u with
      | .set c => m.bits ∪ c.bits
      | .clear c => m.bits \ c.bits
      | .reset => ∅
      | .assign op rhs => op.denote m.bits (operandBits rhs) := by
  have h := FaultMask.hom_bits.runUpdate id m u
  rw [h]
  cases u with
  | set c => rfl
  | clear c => rfl
  | reset => rfl
  | assign op rhs => cases rhs <;> rfl

/-! ## Programs -/

-- The masks after a program, from registers built by any constructors.
def runMasks [DecidableEq V] (init : V → FaultMaskCtor) (p : List (Stmt FaultCode V)) :
    V → FaultMask :=
  FaultMask.ops.run (fun x => (init x).make) p

def runSets [DecidableEq V] (init : V → FaultMaskCtor) (p : List (Stmt FaultCode V)) :
    V → Finset (Fin 16) :=
  (FlagOps.ofCodes FaultCode.bits).run (fun x => (init x).bits) p

-- One statement on the reference sets, written out.

def setOp : BinOp → Finset (Fin 16) → Finset (Fin 16) → Finset (Fin 16)
  | .or => fun s t => s ∪ t
  | .and => fun s t => s ∩ t
  | .xor => fun s t => symmDiff s t

def rhsSet (σ : V → Finset (Fin 16)) : Operand FaultCode V → Finset (Fin 16)
  | .code c => c.bits
  | .mask y => σ y

def setStep [DecidableEq V] (σ : V → Finset (Fin 16)) : Stmt FaultCode V → V → Finset (Fin 16)
  | .update x (.set c) => Function.update σ x (σ x ∪ c.bits)
  | .update x (.clear c) => Function.update σ x (σ x \ c.bits)
  | .update x .reset => Function.update σ x ∅
  | .update x (.assign op rhs) => Function.update σ x (setOp op (σ x) (rhsSet σ rhs))
  | .assign x (.bin op y rhs) => Function.update σ x (setOp op (σ y) (rhsSet σ rhs))
  | .assign x (.codes op c d) => Function.update σ x (setOp op c.bits d.bits)
  | .assign x (.compl y) => Function.update σ x (σ y)ᶜ

theorem exec_ofCodes [DecidableEq V] (σ : V → Finset (Fin 16)) (s : Stmt FaultCode V) :
    (FlagOps.ofCodes FaultCode.bits).exec σ s = setStep σ s := by
  cases s with
  | update x u =>
    cases u with
    | set c | clear c | reset => rfl
    | assign op rhs => cases op <;> cases rhs <;> rfl
  | assign x e =>
    cases e with
    | bin op y rhs => cases op <;> cases rhs <;> rfl
    | codes op c d => cases op <;> rfl
    | compl y => rfl

theorem runSets_concat [DecidableEq V] (init : V → FaultMaskCtor) (p : List (Stmt FaultCode V))
    (s : Stmt FaultCode V) : runSets init (p ++ [s]) = setStep (runSets init p) s := by
  rw [← exec_ofCodes]
  exact List.foldl_concat ..

-- A statement on masks is the statement on their sets.
theorem bits_exec [DecidableEq V] (σ : V → FaultMask) (s : Stmt FaultCode V) :
    FaultMask.bits ∘ FaultMask.ops.exec σ s = setStep (FaultMask.bits ∘ σ) s := by
  rw [FaultMask.hom_bits.exec, exec_ofCodes]

-- The codes of a program are given through `g`, which may restrict them.
theorem bits_run_comapCode {κ : Type} [DecidableEq V] (g : κ → FaultCode) (init : V → FaultMaskCtor)
    (p : List (Stmt κ V)) (x : V) :
    ((FaultMask.ops.comapCode g).run (fun x => (init x).make) p x).bits =
      (FlagOps.ofCodes fun c => (g c).bits).run (fun x => (init x).bits) p x := by
  have hinit : (FaultMask.bits ∘ fun x => (init x).make) = fun x => (init x).bits := by
    funext y
    exact (init y).bits_make
  have hrun := (FaultMask.hom_bits.comapCode g).run (fun x => (init x).make) p
  rw [hinit] at hrun
  exact congrFun hrun x

theorem bits_runMasks [DecidableEq V] (init : V → FaultMaskCtor) (p : List (Stmt FaultCode V))
    (x : V) : (runMasks init p x).bits = runSets init p x :=
  bits_run_comapCode id init p x

/-- **Fault masks refine finite sets.**  After any program over any number of masks, each built by any
constructor, every mask is the bit image of its reference set and every query answers for that set;
the comparison operators on the masks of two programs decide equality of the two sets. -/
theorem faultMask_refines_set [DecidableEq V] (init : V → FaultMaskCtor)
    (p : List (Stmt FaultCode V)) (x : V) :
    (runMasks init p x).rawValue = bitImage (runSets init p x) ∧
    (∀ c : FaultCode,
      (runMasks init p x).has c = true ↔ (runSets init p x ∩ c.bits).Nonempty) ∧
    (runMasks init p x).count.toNat = (runSets init p x).card ∧
    ((runMasks init p x).any = true ↔ (runSets init p x).Nonempty) ∧
    ((runMasks init p x).isEmpty = true ↔ runSets init p x = ∅) ∧
    ∀ (W : Type) [DecidableEq W] (init' : W → FaultMaskCtor) (p' : List (Stmt FaultCode W)) (y : W),
      ((runMasks init p x).opEq (runMasks init' p' y) = true ↔
        runSets init p x = runSets init' p' y) ∧
      ((runMasks init p x).opNe (runMasks init' p' y) = true ↔
        runSets init p x ≠ runSets init' p' y) := by
  rw [← bits_runMasks]
  refine ⟨FaultMask.rawValue_eq _, FaultMask.has_iff _, FaultMask.toNat_count _,
    FaultMask.any_iff _, FaultMask.isEmpty_iff _, fun W _ init' p' y => ?_⟩
  rw [← bits_runMasks]
  exact ⟨FaultMask.opEq_iff _ _, FaultMask.opNe_iff _ _⟩

end Bms.FaultMasks
