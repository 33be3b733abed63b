import Bms.FaultMasks.Refinement

/-!
# Counting the named faults

A mask has sixteen bits and the enumeration names ten of them.  `count`, `any` and the clearing of
all faults speak of the named faults exactly when the six other bits are zero; among the operations,
only the complement raises them.
-/

open Bms.Reasoning Bms.Types

namespace Bms.FaultMasks

/-! ## Masks built from named codes -/

-- A listed enumerator of the fault codes.
abbrev NamedCode := { c : FaultCode // c ∈ FaultCode.named }

-- The constructors other than the one from a raw integer.
inductive NamedCtor
  | default
  | code (c : NamedCode)
deriving DecidableEq, Repr

def NamedCtor.ctor : NamedCtor → FaultMaskCtor
  | .default => .default
  | .code c => .code c

variable {V : Type}

def runNamed [DecidableEq V] (init : V → NamedCtor) (p : List (Stmt NamedCode V)) : V → FaultMask :=
  (FaultMask.ops.comapCode Subtype.val).run (fun x => (init x).ctor.make) p

/-- Whether a program complements a mask: the same program on single bits, every code and every
initial mask being `NONE`. -/
def complemented [DecidableEq V] (p : List (Stmt NamedCode V)) : V → Bool :=
  (FlagOps.ofCodes fun _ => ⊥).run (fun _ => ⊥) p

/-- The queries and the clearing of faults speak of the named faults only. -/
structure CountsNamedFaults (m : FaultMask) : Prop where
  count : m.count.toNat = FaultCode.flags.countP m.has
  any : m.any = true ↔ ∃ f ∈ FaultCode.flags, m.has f = true
  clear : ∀ order : List FaultCode, order.Perm FaultCode.flags →
    (order.foldl FaultMask.clear m).isEmpty = true

/-! ## The bits of a mask that counts named faults -/

theorem countP_has (m : FaultMask) :
    FaultCode.flags.countP m.has = (namedPositions.toFinset ∩ m.bits).card := by
  have hnodup : namedPositions.Nodup := by decide
  rw [flags_eq_map, List.countP_map, List.countP_eq_length_filter,
    ← List.toFinset_card_of_nodup (hnodup.filter _)]
  congr 1
  ext i
  simp [FaultMask.has_atBit]

theorem mem_bits_foldl_clear (codes : List FaultCode) (m : FaultMask) (i : Fin 16) :
    i ∈ (codes.foldl FaultMask.clear m).bits ↔ i ∈ m.bits ∧ ∀ c ∈ codes, i ∉ c.bits := by
  induction codes generalizing m with
  | nil => simp
  | cons c codes ih =>
    rw [List.foldl_cons, ih, m.bits_clear, Finset.mem_sdiff, List.forall_mem_cons, and_assoc]

theorem mem_namedPositions {i : Fin 16} :
    i ∈ namedPositions ↔ ∃ f ∈ FaultCode.flags, i ∈ f.bits := by
  rw [flags_eq_map]
  simp [FaultCode.bits_atBit]

theorem countsNamedFaults_iff_bits (m : FaultMask) :
    CountsNamedFaults m ↔ ∀ i ∈ m.bits, i ∈ namedPositions := by
  apply Iff.intro
  · intro h i hi
    -- A bit that no named code clears would be left over.
    by_contra hun
    have hempty := (FaultMask.isEmpty_iff _).mp (h.clear FaultCode.flags (List.Perm.refl _))
    have hleft : i ∈ (FaultCode.flags.foldl FaultMask.clear m).bits := by
      apply (mem_bits_foldl_clear _ m i).mpr
      exact ⟨hi, fun f hf hif => hun (mem_namedPositions.mpr ⟨f, hf, hif⟩)⟩
    rw [hempty] at hleft
    exact Finset.notMem_empty i hleft
  · intro h
    refine ⟨?_, ?_, ?_⟩
    · have hsub : m.bits ⊆ namedPositions.toFinset := fun i hi => List.mem_toFinset.mpr (h i hi)
      rw [m.toNat_count, countP_has, Finset.inter_eq_right.mpr hsub]
    · rw [m.any_iff, flags_eq_map]
      simp only [List.mem_map, exists_exists_and_eq_and, FaultMask.has_atBit, decide_eq_true_eq]
      exact ⟨fun ⟨i, hi⟩ => ⟨i, h i hi, hi⟩, fun ⟨i, _, hi⟩ => ⟨i, hi⟩⟩
    · intro order horder
      apply (FaultMask.isEmpty_iff _).mpr
      apply Finset.eq_empty_of_forall_notMem
      intro i hi
      have ⟨hbit, hclear⟩ := (mem_bits_foldl_clear order m i).mp hi
      have ⟨f, hf, hif⟩ := mem_namedPositions.mp (h i hbit)
      exact hclear f (horder.mem_iff.mpr hf) hif

/-! ## The unnamed bits of a program -/

theorem notMem_bits_named : ∀ c ∈ FaultCode.named, ∀ i ∉ namedPositions, i ∉ c.bits := by
  decide +kernel

theorem notMem_bits_ctor {i : Fin 16} (hi : i ∉ namedPositions) (k : NamedCtor) :
    i ∉ k.ctor.bits := by
  cases k with
  | default => exact Finset.notMem_empty i
  | code c => exact notMem_bits_named c c.property i hi

-- Every unnamed bit of a mask says whether the program complements the mask.
theorem mem_bits_runNamed [DecidableEq V] (init : V → NamedCtor) (p : List (Stmt NamedCode V))
    (x : V) {i : Fin 16} (hi : i ∉ namedPositions) :
    i ∈ (runNamed init p x).bits ↔ complemented p x = true := by
  have hnamed : ∀ c : NamedCode, i ∉ c.val.bits := fun c => notMem_bits_named c c.property i hi
  have hbit := FlagOps.decide_mem_run hnamed (fun x => (init x).ctor.bits)
    (fun y => notMem_bits_ctor hi (init y)) p x
  have hbits := bits_run_comapCode Subtype.val (fun x => (init x).ctor) p x
  unfold runNamed
  rw [hbits, ← decide_eq_true_iff (p := i ∈ _), hbit]
  rfl

/-- **Only real faults are counted while no mask is complemented.**  A mask reached from default and
named constructions counts the named faults exactly when the program leaves it uncomplemented. -/
theorem countsNamedFaults_iff [DecidableEq V] (init : V → NamedCtor) (p : List (Stmt NamedCode V))
    (x : V) : CountsNamedFaults (runNamed init p x) ↔ complemented p x = false := by
  rw [countsNamedFaults_iff_bits]
  by_cases hc : complemented p x = true
  · -- Bit 15 is set, and no named code has it.
    have hun : (15 : Fin 16) ∉ namedPositions := by decide
    have hbit : (15 : Fin 16) ∈ (runNamed init p x).bits := (mem_bits_runNamed init p x hun).mpr hc
    rw [hc]
    exact ⟨fun h => absurd (h 15 hbit) hun, fun h => Bool.noConfusion h⟩
  · have hfalse : complemented p x = false := Bool.eq_false_of_not_eq_true hc
    rw [hfalse]
    refine ⟨fun _ => rfl, fun _ i hi => ?_⟩
    by_contra hun
    exact hc ((mem_bits_runNamed init p x hun).mp hi)

-- The complement of an empty mask shows sixteen faults, six of which no named code clears.
theorem countsNamedFaults_complement :
    let m := runNamed (fun _ => .default) [.assign () (.compl ())] ()
    ¬ CountsNamedFaults m ∧ m.count = 16#8 ∧ FaultCode.flags.countP m.has = 10 ∧
      (FaultCode.flags.foldl FaultMask.clear m).rawValue = 0xFC00#16 := by
  refine ⟨fun h => ?_, by decide +kernel, by decide +kernel, by decide +kernel⟩
  have hclear := h.clear FaultCode.flags (List.Perm.refl _)
  revert hclear
  decide +kernel

/-- A program without `~` counts the named faults only. -/
theorem countsNamedFaults_of_noCompl [DecidableEq V] (init : V → NamedCtor)
    (p : List (Stmt NamedCode V)) (hp : ∀ x y, Stmt.assign x (.compl y) ∉ p) (x : V) :
    CountsNamedFaults (runNamed init p x) := by
  have hplain : complemented p x = false := congrFun (FlagOps.run_bot p hp) x
  apply (countsNamedFaults_iff_bits _).mpr
  intro i hi
  by_contra hun
  have hc := (mem_bits_runNamed init p x hun).mp hi
  rw [hplain] at hc
  exact Bool.false_ne_true hc

end Bms.FaultMasks
