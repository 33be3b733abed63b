import Mathlib

/-!
# Steps that act bit by bit

A step on a word of flags acts on each bit by one of four functions: it keeps, raises, lowers or
toggles the bit.  A script of such steps has a net action on each bit, and the net actions decide
what can be asked about the script: whether another script does the same, and whether it can be run
again without effect.
-/

namespace Bms.Reasoning

inductive BitAction
  | keep
  | raise
  | lower
  | toggle
deriving DecidableEq, Repr

namespace BitAction

def act : BitAction → Bool → Bool
  | .keep, x => x
  | .raise, _ => true
  | .lower, _ => false
  | .toggle, x => !x

-- The action `a`, then the action `b`.
def seq : BitAction → BitAction → BitAction
  | a, .keep => a
  | _, .raise => .raise
  | _, .lower => .lower
  | .keep, .toggle => .toggle
  | .raise, .toggle => .lower
  | .lower, .toggle => .raise
  | .toggle, .toggle => .keep

/-- The action decides the bit, whatever it was. -/
def Decides (a : BitAction) : Prop := a = .raise ∨ a = .lower

instance (a : BitAction) : Decidable a.Decides := inferInstanceAs (Decidable (_ ∨ _))

@[simp] theorem act_seq (a b : BitAction) (x : Bool) : (a.seq b).act x = b.act (a.act x) := by
  cases a <;> cases b <;> cases x <;> rfl

theorem act_ext {a b : BitAction} (hlow : a.act false = b.act false)
    (hhigh : a.act true = b.act true) : a = b := by
  cases a <;> cases b <;> simp_all [act]

-- Only the toggle is not idempotent, and it shows on a lowered bit.
theorem act_idem_of_false {a : BitAction} (h : a.act (a.act false) = a.act false) (x : Bool) :
    a.act (a.act x) = a.act x := by
  cases a <;> cases x <;> simp_all [act]

-- Every action is an `and` with one bit and an exclusive or with another.
theorem act_eq_xor (a : BitAction) (x : Bool) :
    a.act x = ((x && (a.act false ^^ a.act true)) ^^ a.act false) := by
  cases a <;> cases x <;> rfl

def net (actions : List BitAction) : BitAction := actions.foldl seq .keep

theorem act_foldl_seq (a : BitAction) (actions : List BitAction) (x : Bool) :
    (actions.foldl seq a).act x = actions.foldl (fun x b => b.act x) (a.act x) := by
  induction actions generalizing a with
  | nil => rfl
  | cons b actions ih =>
    rw [List.foldl_cons, List.foldl_cons, ih, act_seq]

theorem act_net (actions : List BitAction) (x : Bool) :
    (net actions).act x = actions.foldl (fun x b => b.act x) x := act_foldl_seq .keep actions x

end BitAction

/-- A type of flag words whose steps act bit by bit. -/
structure BitSystem (ε ι M : Type*) where
  exec : M → ε → M
  bit : M → ι → Bool
  ofBits : (ι → Bool) → M
  action : ε → ι → BitAction
  bit_ofBits : ∀ f i, bit (ofBits f) i = f i
  ext : ∀ m n, (∀ i, bit m i = bit n i) → m = n
  bit_exec : ∀ m e i, bit (exec m e) i = (action e i).act (bit m i)

namespace BitSystem

variable {ε ι M : Type*} (sys : BitSystem ε ι M)

def run (steps : List ε) (m : M) : M := steps.foldl sys.exec m

def netAction (steps : List ε) (i : ι) : BitAction :=
  BitAction.net (steps.map fun e => sys.action e i)

-- The words with no flag and with every flag.
def low : M := sys.ofBits fun _ => false
def high : M := sys.ofBits fun _ => true

theorem bit_low (i : ι) : sys.bit sys.low i = false := sys.bit_ofBits _ i

theorem bit_high (i : ι) : sys.bit sys.high i = true := sys.bit_ofBits _ i

theorem bit_foldl (steps : List ε) (m : M) (i : ι) :
    sys.bit (steps.foldl sys.exec m) i =
      steps.foldl (fun x e => (sys.action e i).act x) (sys.bit m i) := by
  induction steps generalizing m with
  | nil => rfl
  | cons e steps ih => rw [List.foldl_cons, List.foldl_cons, ih, sys.bit_exec]

/-- A script acts on each bit by its net action there. -/
theorem bit_run (steps : List ε) (m : M) (i : ι) :
    sys.bit (sys.run steps m) i = (sys.netAction steps i).act (sys.bit m i) := by
  unfold run netAction
  rw [bit_foldl, BitAction.act_net, List.foldl_map]

/-! ## Comparing scripts -/

-- The results on the two extreme words show the net actions.
theorem netAction_eq_of_extremes {steps steps' : List ε}
    (hlow : sys.run steps sys.low = sys.run steps' sys.low)
    (hhigh : sys.run steps sys.high = sys.run steps' sys.high) (i : ι) :
    sys.netAction steps i = sys.netAction steps' i := by
  have hl := congrArg (fun m => sys.bit m i) hlow
  have hh := congrArg (fun m => sys.bit m i) hhigh
  rw [bit_run, bit_run, bit_low] at hl
  rw [bit_run, bit_run, bit_high] at hh
  exact BitAction.act_ext hl hh

theorem run_eq_of_netAction {steps steps' : List ε}
    (h : ∀ i, sys.netAction steps i = sys.netAction steps' i) (m : M) :
    sys.run steps m = sys.run steps' m := by
  apply sys.ext
  intro i
  rw [bit_run, bit_run, h]

/-- Two scripts that agree on the extreme words agree on every word. -/
theorem run_eq_iff_extremes (steps steps' : List ε) :
    (∀ m, sys.run steps m = sys.run steps' m) ↔
      sys.run steps sys.low = sys.run steps' sys.low ∧
        sys.run steps sys.high = sys.run steps' sys.high := by
  apply Iff.intro
  · intro h
    exact ⟨h sys.low, h sys.high⟩
  · intro h m
    exact sys.run_eq_of_netAction (sys.netAction_eq_of_extremes h.1 h.2) m

-- The results on the two extreme words give the result on every word.
theorem bit_run_eq_xor (steps : List ε) (m : M) (i : ι) :
    sys.bit (sys.run steps m) i =
      ((sys.bit m i && (sys.bit (sys.run steps sys.low) i ^^ sys.bit (sys.run steps sys.high) i)) ^^
        sys.bit (sys.run steps sys.low) i) := by
  rw [bit_run, bit_run, bit_run, bit_low, bit_high]
  exact BitAction.act_eq_xor _ _

/-- A script can be run again without effect exactly when it can on the word without flags. -/
theorem run_idem_iff (steps : List ε) :
    (∀ m, sys.run steps (sys.run steps m) = sys.run steps m) ↔
      sys.run steps (sys.run steps sys.low) = sys.run steps sys.low := by
  apply Iff.intro
  · intro h
    exact h sys.low
  · intro h m
    apply sys.ext
    intro i
    have hbit := congrArg (fun m => sys.bit m i) h
    rw [bit_run, bit_run, bit_low] at hbit
    rw [bit_run, bit_run]
    exact BitAction.act_idem_of_false hbit (sys.bit m i)

end BitSystem

end Bms.Reasoning
