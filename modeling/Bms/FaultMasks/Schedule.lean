import Bms.FaultMasks.Refinement
import Bms.Reasoning.Interleaving

/-!
# Fault reporting from several tasks

Tasks report faults by atomic updates of one shared mask.  Updates of different tasks that mention
different faults, or that push every fault they mention the same way, commute; so the mask does not
depend on how the scheduler interleaves the tasks.
-/

open Bms.Reasoning Bms.Types

namespace Bms.FaultMasks

/-- An atomic update of the shared mask. -/
inductive Report
  | set (code : FaultCode)
  | clear (code : FaultCode)
  | orAssign (rhs : Operand FaultCode FaultMask)
  | xorAssign (rhs : Operand FaultCode FaultMask)
deriving DecidableEq, Repr

inductive ReportKind
  | raise
  | clear
  | toggle
deriving DecidableEq, Repr

namespace Report

def update : Report → Update FaultCode FaultMask
  | .set c => .set c
  | .clear c => .clear c
  | .orAssign rhs => .assign .or rhs
  | .xorAssign rhs => .assign .xor rhs

def kind : Report → ReportKind
  | .set _ => .raise
  | .clear _ => .clear
  | .orAssign _ => .raise
  | .xorAssign _ => .toggle

def mentions : Report → Finset (Fin 16)
  | .set c => c.bits
  | .clear c => c.bits
  | .orAssign rhs => operandBits rhs
  | .xorAssign rhs => operandBits rhs

-- The reports mention disjoint fault bits or are of the same kind.
def Compatible (r r' : Report) : Prop := Disjoint r.mentions r'.mentions ∨ r.kind = r'.kind

instance (r r' : Report) : Decidable (Compatible r r') := inferInstanceAs (Decidable (_ ∨ _))

end Report

def applyReport (m : FaultMask) (r : Report) : FaultMask := FaultMask.ops.runUpdate id m r.update

/-! ## One bit -/

-- What a report of a kind does to a bit that it mentions.
def ReportKind.onBit : ReportKind → Bool → Bool
  | .raise => fun _ => true
  | .clear => fun _ => false
  | .toggle => fun b => !b

def Report.onBit (i : Fin 16) (b : Bool) (r : Report) : Bool :=
  if i ∈ r.mentions then r.kind.onBit b else b

theorem maskBit_applyReport (m : FaultMask) (r : Report) (i : Fin 16) :
    maskBit (applyReport m r) i = r.onBit i (maskBit m i) := by
  unfold applyReport Report.onBit
  rw [maskBit_eq_decide, maskBit_eq_decide, bits_runUpdate]
  by_cases hi : i ∈ r.mentions
  · rw [if_pos hi]
    cases r with
    | set c => simp [Report.update, Report.kind, ReportKind.onBit, show i ∈ c.bits from hi]
    | clear c => simp [Report.update, Report.kind, ReportKind.onBit, show i ∈ c.bits from hi]
    | orAssign rhs =>
      simp [Report.update, Report.kind, ReportKind.onBit, BinOp.denote,
        show i ∈ operandBits rhs from hi]
    | xorAssign rhs =>
      simp [Report.update, Report.kind, ReportKind.onBit, BinOp.denote, Finset.mem_symmDiff,
        show i ∈ operandBits rhs from hi]
  · rw [if_neg hi]
    cases r with
    | set c => simp [Report.update, show i ∉ c.bits from hi]
    | clear c => simp [Report.update, show i ∉ c.bits from hi]
    | orAssign rhs => simp [Report.update, BinOp.denote, show i ∉ operandBits rhs from hi]
    | xorAssign rhs =>
      simp [Report.update, BinOp.denote, Finset.mem_symmDiff, show i ∉ operandBits rhs from hi]

theorem applyReport_comm {r r' : Report} (h : r.Compatible r') (m : FaultMask) :
    applyReport (applyReport m r) r' = applyReport (applyReport m r') r := by
  apply eq_of_maskBit
  intro i
  rw [maskBit_applyReport, maskBit_applyReport, maskBit_applyReport, maskBit_applyReport]
  unfold Report.onBit
  by_cases hi : i ∈ r.mentions
  · by_cases hi' : i ∈ r'.mentions
    · -- Both mention the bit, so they push it the same way.
      rcases h with hdisj | hkind
      · exact absurd hi' (Finset.disjoint_left.mp hdisj hi)
      · rw [if_pos hi, if_pos hi, if_pos hi', if_pos hi', hkind]
    · rw [if_pos hi, if_pos hi, if_neg hi', if_neg hi']
  · rw [if_neg hi, if_neg hi]

/-! ## Schedules -/

/-- **Fault reporting does not depend on the schedule.**  Where the reports of different tasks are
compatible, every interleaving of the tasks ends in the same mask, and a bit that no other task
mentions ends as if its task had run alone. -/
theorem schedule_independent (n : ℕ) (tasks : Fin n → List Report)
    (hcompat : ∀ i j, i ≠ j → ∀ r ∈ tasks i, ∀ r' ∈ tasks j, r.Compatible r') (m : FaultMask) :
    (∀ s s', Interleaves tasks s → Interleaves tasks s' →
      runSchedule applyReport m s = runSchedule applyReport m s') ∧
    ∀ s, Interleaves tasks s → ∀ i (b : Fin 16), (∀ j, j ≠ i → ∀ r ∈ tasks j, b ∉ r.mentions) →
      maskBit (runSchedule applyReport m s) b = maskBit ((tasks i).foldl applyReport m) b := by
  apply And.intro
  · intro s s' hs hs'
    apply hs.runSchedule_eq hs'
    intro i j hij r hr r' hr' m
    exact applyReport_comm (hcompat i j hij r hr r' hr') m
  · intro s hs i b hb
    apply hs.view_runSchedule i (fun m => maskBit m b) (Report.onBit b)
    · intro m r
      exact maskBit_applyReport m r b
    · intro j hj r hr v
      exact if_neg (hb j hj r hr)

-- One task raises and clears a fault while another toggles a second one, which the mask then holds.
theorem schedule_independent_pair :
    runSchedule applyReport {}
        [((0 : Fin 2), .set .ovp), (1, .xorAssign (.code .uvp)), (0, .clear .ovp)] =
        runSchedule applyReport {}
          [((1 : Fin 2), .xorAssign (.code .uvp)), (0, .set .ovp), (0, .clear .ovp)] ∧
      maskBit (runSchedule applyReport {}
        [((0 : Fin 2), .set .ovp), (1, .xorAssign (.code .uvp)), (0, .clear .ovp)]) 1 =
        maskBit (applyReport {} (.xorAssign (.code .uvp))) 1 ∧
      runSchedule applyReport {}
        [((0 : Fin 2), .set .ovp), (1, .xorAssign (.code .uvp)), (0, .clear .ovp)] =
          FaultMask.ofCode .uvp := by
  have h := schedule_independent 2 ![[.set .ovp, .clear .ovp], [.xorAssign (.code .uvp)]]
    (by decide +kernel) {}
  refine ⟨h.1 _ _ ?_ ?_, h.2 _ ?_ 1 1 ?_, ?_⟩
  all_goals decide +kernel

end Bms.FaultMasks
