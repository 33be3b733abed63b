import Bms.FaultMasks.NamedFaults

/-!
# The masks that named faults can make

Programs that name faults only cannot make every mask: the six unnamed bits are all equal in every
mask they reach, and zero where no mask is complemented.  All such masks are reached.
-/

open Bms.Reasoning Bms.Types

namespace Bms.FaultMasks

def namedFlags : List NamedCode := FaultCode.flags.attach.map fun f =>
  ⟨f.val, List.mem_cons_of_mem _ f.property⟩

-- One register, on which the codes are raised in turn.
def raiseAll (codes : List NamedCode) : List (Stmt NamedCode Unit) :=
  codes.map fun c => .update () (.set c)

def raised (codes : List NamedCode) : FaultMask := runNamed (fun _ => .default) (raiseAll codes) ()

theorem runNamed_concat {V : Type} [DecidableEq V] (init : V → NamedCtor)
    (p : List (Stmt NamedCode V)) (s : Stmt NamedCode V) :
    runNamed init (p ++ [s]) =
      (FaultMask.ops.comapCode Subtype.val).exec (runNamed init p) s := List.foldl_concat ..

theorem mem_bits_raised (codes : List NamedCode) (i : Fin 16) :
    i ∈ (raised codes).bits ↔ ∃ c ∈ codes, i ∈ c.val.bits := by
  unfold raised raiseAll
  induction codes using List.reverseRecOn with
  | nil => simp [runNamed, FlagOps.run, NamedCtor.ctor, FaultMaskCtor.make, FaultMask.bits]
  | append_singleton codes c ih =>
    rw [List.map_append, List.map_singleton, runNamed_concat]
    show i ∈ ((runNamed (fun _ => .default) (codes.map fun c => .update () (.set c)) ()).set
      c.val).bits ↔ _
    rw [FaultMask.bits_set, Finset.mem_union, ih]
    simp [or_and_right, exists_or]

-- Raising the named faults of a mask gives its named bits.
theorem mem_bits_raised_filter (m : FaultMask) (i : Fin 16) :
    i ∈ (raised (namedFlags.filter fun c => m.has c.val)).bits ↔ i ∈ namedPositions ∧ i ∈ m.bits := by
  have hflags : (∃ c ∈ namedFlags.filter fun c => m.has c.val, i ∈ c.val.bits) ↔
      ∃ f ∈ FaultCode.flags, m.has f = true ∧ i ∈ f.bits := by
    unfold namedFlags
    simp only [List.mem_filter, List.mem_map, List.mem_attach, true_and, Subtype.exists]
    apply Iff.intro
    · intro h
      have ⟨f, hf, ⟨⟨g, hg, hgf⟩, hhas⟩, hi⟩ := h
      cases hgf
      exact ⟨f, hg, hhas, hi⟩
    · intro h
      have ⟨f, hf, hhas, hi⟩ := h
      exact ⟨f, List.mem_cons_of_mem _ hf, ⟨⟨f, hf, rfl⟩, hhas⟩, hi⟩
  rw [mem_bits_raised, hflags, flags_eq_map]
  simp only [List.mem_map, exists_exists_and_eq_and, FaultMask.has_atBit, decide_eq_true_eq,
    FaultCode.bits_atBit, Finset.mem_singleton]
  apply Iff.intro
  · intro h
    have ⟨j, hj, hbit, hi⟩ := h
    rw [hi]
    exact ⟨hj, hbit⟩
  · intro h
    exact ⟨i, h.1, h.2, rfl⟩

theorem raised_eq_of_named {m : FaultMask} (h : ∀ i ∈ m.bits, i ∈ namedPositions) :
    raised (namedFlags.filter fun c => m.has c.val) = m := by
  apply FaultMask.bits_injective
  ext i
  rw [mem_bits_raised_filter]
  exact ⟨fun hi => hi.2, fun hi => ⟨h i hi, hi⟩⟩

-- The complement of a mask with named bits only.
theorem runNamed_complRaised {m : FaultMask} (h : ∀ i ∈ m.compl.bits, i ∈ namedPositions) :
    runNamed (fun _ => .default)
      (raiseAll (namedFlags.filter fun c => m.compl.has c.val) ++ [.assign () (.compl ())]) () = m := by
  rw [runNamed_concat]
  show (raised (namedFlags.filter fun c => m.compl.has c.val)).compl = m
  rw [raised_eq_of_named h]
  apply FaultMask.bits_injective
  rw [FaultMask.bits_compl, FaultMask.bits_compl, compl_compl]

theorem compl_notMem_raiseAll (codes : List NamedCode) (x y : Unit) :
    Stmt.assign x (.compl y) ∉ raiseAll codes := by
  intro h
  have ⟨c, _, hc⟩ := List.mem_map.mp h
  cases hc

/-- The masks that programs over named faults reach, from default and named constructions. -/
def Reached (p : (V : Type) → List (Stmt NamedCode V) → Prop) (m : FaultMask) : Prop :=
  ∃ (V : Type) (_ : DecidableEq V) (init : V → NamedCtor) (prog : List (Stmt NamedCode V)) (x : V),
    p V prog ∧ runNamed init prog x = m

/-- **Which masks named faults can make.**  Programs over named faults reach exactly the masks whose
unnamed bits are all equal; those without a complement reach exactly the masks whose unnamed bits
are all zero. -/
theorem reached_iff (m : FaultMask) :
    (Reached (fun _ _ => True) m ↔
      ∀ i ∉ namedPositions, ∀ j ∉ namedPositions, (i ∈ m.bits ↔ j ∈ m.bits)) ∧
    (Reached (fun _ prog => ∀ x y, Stmt.assign x (.compl y) ∉ prog) m ↔
      ∀ i ∉ namedPositions, i ∉ m.bits) := by
  apply And.intro
  · apply Iff.intro
    · intro h i hi j hj
      have ⟨V, _, init, prog, x, _, hm⟩ := h
      rw [← hm, mem_bits_runNamed init prog x hi, mem_bits_runNamed init prog x hj]
    · intro h
      by_cases hzero : ∀ i ∈ m.bits, i ∈ namedPositions
      · exact ⟨Unit, inferInstance, fun _ => .default, _, (), trivial, raised_eq_of_named hzero⟩
      · -- All unnamed bits are one: the complement has named bits only.
        push Not at hzero
        have ⟨k, hbit, hk⟩ := hzero
        have hcompl : ∀ i ∈ m.compl.bits, i ∈ namedPositions := by
          intro i hi
          by_contra hun
          rw [FaultMask.bits_compl, Finset.mem_compl] at hi
          exact hi ((h k hk i hun).mp hbit)
        exact ⟨Unit, inferInstance, fun _ => .default, _, (), trivial, runNamed_complRaised hcompl⟩
  · apply Iff.intro
    · intro h i hi hbit
      have ⟨V, _, init, prog, x, hprog, hm⟩ := h
      have hnamed := (countsNamedFaults_iff_bits _).mp (countsNamedFaults_of_noCompl init prog hprog x)
      rw [← hm] at hbit
      exact hi (hnamed i hbit)
    · intro h
      have hzero : ∀ i ∈ m.bits, i ∈ namedPositions := fun i hi => by_contra fun hun => h i hun hi
      exact ⟨Unit, inferInstance, fun _ => .default, _, (), compl_notMem_raiseAll _,
        raised_eq_of_named hzero⟩

end Bms.FaultMasks
