import Mathlib

/-!
# Windows on a wrapped clock

A counter shows an unbounded clock modulo `m`.  A window of length `d < m` that opens at instant `a`
is tested on the shown values, without wrapping.  Within the counter epoch of `a` the test is exact;
after a wrap it refuses instants inside the window, and it accepts instants of later epochs.
-/

namespace Bms.Reasoning

variable {m a d t : ℕ}

/-- The window test on the shown values of the instants `a` and `t`. -/
def ShownInWindow (m d a t : ℕ) : Prop := a % m ≤ t % m ∧ t % m ≤ a % m + d

instance : Decidable (ShownInWindow m d a t) := inferInstanceAs (Decidable (_ ∧ _))

-- In one epoch the shown values compare as the instants do.
theorem shownInWindow_of_div_eq (hepoch : a / m = t / m) :
    ShownInWindow m d a t ↔ a ≤ t ∧ t ≤ a + d := by
  have ha := Nat.div_add_mod a m
  have ht := Nat.div_add_mod t m
  rw [hepoch] at ha
  unfold ShownInWindow
  omega

theorem div_le_div_add_one (hd : d < m) (hhi : t ≤ a + d) : t / m ≤ a / m + 1 := by
  have hpos : 0 < m := by omega
  calc
    t / m ≤ (a + m) / m := Nat.div_le_div_right (by omega)
    _ = a / m + 1 := Nat.add_div_right a hpos

-- An instant inside the window passes the test exactly when the counter has not wrapped since the
-- window opened.
theorem shownInWindow_iff_div_eq (hd : d < m) (hlo : a ≤ t) (hhi : t ≤ a + d) :
    ShownInWindow m d a t ↔ a / m = t / m := by
  apply Iff.intro
  · intro hshown
    by_contra hne
    have hle : a / m ≤ t / m := Nat.div_le_div_right hlo
    have hnext : t / m = a / m + 1 := by
      have h := div_le_div_add_one hd hhi
      omega
    have ha := Nat.div_add_mod a m
    have ht := Nat.div_add_mod t m
    rw [hnext, Nat.mul_add, Nat.mul_one] at ht
    have hmod := hshown.1
    omega
  · intro hepoch
    exact (shownInWindow_of_div_eq hepoch).mpr ⟨hlo, hhi⟩

-- An instant past the window fails the test for as long as less than a full turn of the counter
-- has passed since the window opened.
theorem not_shownInWindow_of_lt_turn (hpast : a + d < t) (hturn : t < a + m) :
    ¬ ShownInWindow m d a t := by
  intro hx
  rcases hx with ⟨hlo, hhi⟩
  have ha := Nat.div_add_mod a m
  have ht := Nat.div_add_mod t m
  by_cases hepoch : a / m = t / m
  · rw [hepoch] at ha
    omega
  · have hlt : a / m < t / m := lt_of_le_of_ne (Nat.div_le_div_right (by omega)) hepoch
    have hmul : m * (a / m + 1) ≤ m * (t / m) := Nat.mul_le_mul_left m hlt
    rw [Nat.mul_add, Nat.mul_one] at hmul
    omega

end Bms.Reasoning
