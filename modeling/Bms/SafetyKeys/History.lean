import Bms.Reasoning.Interlock
import Bms.Reasoning.WrappedClock
import Bms.Types.SafetyKeys

/-!
# The guard key as an interlock

A run of calls on the key implements the abstract two-stage interlock.  The answer of the firing
query is thereby read off the history: the last arming, the tokens supplied since, and the time.
-/

open Bms.Types Bms.Reasoning

namespace Bms.SafetyKeys

open PyroTriggerKey

/-! ## Key and interlock -/

/-- The key implements an interlock state whose instants are counted without bound: the key holds
the low 32 bits of the arming instant. -/
def Implements (key : PyroTriggerKey) : Interlock ℕ → Prop
  | .safe => key.armKey ≠ armMagic
  | .armed since token =>
      key.armKey = armMagic ∧ key.armedAtMs = BitVec.ofNat 32 since ∧
        (key.fireKey == fireMagic) = token

theorem implements_default : Implements {} .safe := by
  unfold Implements
  decide

theorem implements_arm (key : PyroTriggerKey) (now : ℕ) (seqId : BitVec 32) :
    Implements (key.arm (BitVec.ofNat 32 now) seqId) (.armed now false) := by
  exact ⟨rfl, rfl, show (0#32 == fireMagic) = false by decide⟩

theorem implements_disarm (key : PyroTriggerKey) : Implements key.disarm .safe := implements_default

theorem implements_writeFireKey {key : PyroTriggerKey} {s : Interlock ℕ} (h : Implements key s)
    (word : BitVec 32) : Implements (key.writeFireKey word) (s.next (.token (word == fireMagic))) := by
  cases s with
  | safe => exact h
  | armed since token => exact ⟨h.1, h.2.1, rfl⟩

-- The query at instant `T` is the window test on the shown values of the arming instant and `T`.
theorem Implements.isFireAuthorized_iff {key : PyroTriggerKey} {s : Interlock ℕ}
    (h : Implements key s) (T : ℕ) :
    key.isFireAuthorized (BitVec.ofNat 32 T) = true ↔
      ∃ since, s = .armed since true ∧ ShownInWindow (2 ^ 32) 50 since T := by
  rw [PyroTriggerKey.isFireAuthorized_iff]
  cases s with
  | safe =>
    apply Iff.intro
    · intro hopen
      rcases hopen with ⟨ha, -⟩
      exact absurd ha h
    · intro hopen
      rcases hopen with ⟨since, hs, -⟩
      cases hs
  | armed since token =>
    obtain ⟨ha, ht, hf⟩ := h
    rw [ht, BitVec.toNat_ofNat, BitVec.toNat_ofNat]
    apply Iff.intro
    · intro hopen
      rcases hopen with ⟨-, hfire, hwindow⟩
      rw [hfire, beq_self_eq_true] at hf
      exact ⟨since, by rw [← hf], hwindow⟩
    · intro hopen
      rcases hopen with ⟨since', hs, hwindow⟩
      obtain ⟨rfl, rfl⟩ := Interlock.armed.inj hs
      exact ⟨ha, beq_iff_eq.mp hf, hwindow⟩

-- Steps of any kind that keep the relation keep it over a run.
theorem implements_foldl {ε : Type} (exec : PyroTriggerKey → ε → PyroTriggerKey)
    (event : ε → Interlock.Event ℕ)
    (hexec : ∀ {key s}, Implements key s → ∀ e, Implements (exec key e) (s.next (event e)))
    {key : PyroTriggerKey} {s : Interlock ℕ} (h : Implements key s) (steps : List ε) :
    Implements (steps.foldl exec key) (Interlock.after event steps s) := by
  induction steps generalizing key s with
  | nil => exact h
  | cons e steps ih => exact ih (hexec h e)

/-! ## Runs of calls -/

-- A call on the key; `arm` and the fire token carry any 32-bit words.
inductive KeyCall
  | arm (timestampMs seqId : BitVec 32)
  | disarm
  | writeFireKey (word : BitVec 32)
deriving DecidableEq, Repr

namespace KeyCall

def exec (key : PyroTriggerKey) : KeyCall → PyroTriggerKey
  | .arm timestampMs seqId => key.arm timestampMs seqId
  | .disarm => key.disarm
  | .writeFireKey word => key.writeFireKey word

def resets : KeyCall → Bool
  | .arm .. | .disarm => true
  | .writeFireKey _ => false

def fireKeyWrite? : KeyCall → Option (BitVec 32)
  | .writeFireKey word => some word
  | _ => none

-- The same call with the sequence counter blanked out.
def dropSequenceId : KeyCall → KeyCall
  | .arm timestampMs _ => .arm timestampMs 0#32
  | c => c

def event : KeyCall → Interlock.Event ℕ
  | .arm timestampMs _ => .arm timestampMs.toNat
  | .disarm => .disarm
  | .writeFireKey word => .token (word == fireMagic)

theorem event_resets (c : KeyCall) : c.event.resets = c.resets := by cases c <;> rfl

theorem event_token? (c : KeyCall) : c.event.token? = c.fireKeyWrite?.map (· == fireMagic) := by
  cases c <;> rfl

theorem event_eq_arm {c : KeyCall} {t0 : BitVec 32} (h : c.event = .arm t0.toNat) :
    ∃ seqId, c = .arm t0 seqId := by
  cases c with
  | arm timestampMs seqId =>
    exact ⟨seqId, by rw [BitVec.eq_of_toNat_eq (Interlock.Event.arm.inj h)]⟩
  | disarm => cases h
  | writeFireKey word => cases h

theorem event_dropSequenceId (c : KeyCall) : c.dropSequenceId.event = c.event := by cases c <;> rfl

end KeyCall

def runCalls (calls : List KeyCall) : PyroTriggerKey := calls.foldl KeyCall.exec {}

def lastFireKeyWrite (calls : List KeyCall) : Option (BitVec 32) :=
  (calls.filterMap KeyCall.fireKeyWrite?).getLast?

theorem implements_exec {key : PyroTriggerKey} {s : Interlock ℕ} (h : Implements key s)
    (c : KeyCall) : Implements (c.exec key) (s.next c.event) := by
  cases c with
  | arm timestampMs seqId =>
    have harm := implements_arm key timestampMs.toNat seqId
    rwa [BitVec.ofNat_toNat, BitVec.setWidth_eq] at harm
  | disarm => exact implements_disarm key
  | writeFireKey word => exact implements_writeFireKey h word

theorem implements_runCalls (calls : List KeyCall) :
    Implements (runCalls calls) (Interlock.after KeyCall.event calls) :=
  implements_foldl KeyCall.exec KeyCall.event implements_exec implements_default calls

-- The arming instants of a run of calls are 32-bit timestamps.
theorem exists_timestamp {calls : List KeyCall} {since : ℕ}
    (h : Interlock.after KeyCall.event calls = .armed since true) :
    ∃ t0 : BitVec 32, since = t0.toNat := by
  obtain ⟨pre, e, post, -, he, -⟩ := (Interlock.after_eq_armed_true_iff _ _ _).mp h
  cases e with
  | arm timestampMs seqId => exact ⟨timestampMs, (Interlock.Event.arm.inj he).symm⟩
  | disarm => cases he
  | writeFireKey word => cases he

-- Queries on the key are the authorisations of the interlock with a window of 50 ms.
theorem isFireAuthorized_eq_authorised (calls : List KeyCall) (t : BitVec 32) :
    (runCalls calls).isFireAuthorized t = true ↔
      (Interlock.after KeyCall.event calls).Authorised 50 t.toNat := by
  conv_lhs => rw [show t = BitVec.ofNat 32 t.toNat by rw [BitVec.ofNat_toNat, BitVec.setWidth_eq]]
  rw [(implements_runCalls calls).isFireAuthorized_iff]
  unfold Interlock.Authorised
  refine exists_congr fun since => and_congr_right fun hs => ?_
  obtain ⟨t0, rfl⟩ := exists_timestamp hs
  -- Both instants lie in the first epoch of the counter.
  exact shownInWindow_of_div_eq (by rw [Nat.div_eq_of_lt t0.isLt, Nat.div_eq_of_lt t.isLt])

theorem isFireAuthorized_congr {calls calls' : List KeyCall}
    (h : Interlock.after KeyCall.event calls = Interlock.after KeyCall.event calls')
    (t : BitVec 32) :
    (runCalls calls).isFireAuthorized t = (runCalls calls').isFireAuthorized t := by
  rw [Bool.eq_iff_iff, isFireAuthorized_eq_authorised, isFireAuthorized_eq_authorised, h]

-- The last reset of the run is an arming at `t0`, and the last fire key write after it is the fire
-- token.
theorem after_eq_armed_iff (calls : List KeyCall) (t0 : BitVec 32) :
    Interlock.after KeyCall.event calls = .armed t0.toNat true ↔
      ∃ pre seqId post, calls = pre ++ .arm t0 seqId :: post ∧
        (∀ c ∈ post, c.resets = false) ∧ lastFireKeyWrite post = some fireMagic := by
  simp only [Interlock.after_eq_armed_true_iff, KeyCall.event_resets,
    Interlock.lastToken_iff fireMagic _ _ KeyCall.event_token?]
  apply Iff.intro
  · intro hopen
    rcases hopen with ⟨pre, e, post, rfl, he, hpost, hlast⟩
    obtain ⟨seqId, rfl⟩ := KeyCall.event_eq_arm he
    exact ⟨pre, seqId, post, rfl, hpost, hlast⟩
  · intro hopen
    rcases hopen with ⟨pre, seqId, post, rfl, hpost, hlast⟩
    exact ⟨pre, .arm t0 seqId, post, rfl, rfl, hpost, hlast⟩

theorem after_dropSequenceId (calls : List KeyCall) :
    Interlock.after KeyCall.event (calls.map KeyCall.dropSequenceId) =
      Interlock.after KeyCall.event calls := by
  simp only [Interlock.after, List.foldl_map, KeyCall.event_dropSequenceId]

theorem after_concat_arm (pre : List KeyCall) (t0 seqId : BitVec 32) :
    Interlock.after KeyCall.event (pre ++ [.arm t0 seqId]) = .armed t0.toNat false := by
  rw [Interlock.after_append]
  rfl

theorem isFireAuthorized_runCalls_iff (calls : List KeyCall) (t : BitVec 32) :
    (runCalls calls).isFireAuthorized t = true ↔
      ∃ pre t0 seqId post, calls = pre ++ .arm t0 seqId :: post ∧
        (∀ c ∈ post, c.resets = false) ∧ lastFireKeyWrite post = some fireMagic ∧
        t0.toNat ≤ t.toNat ∧ t.toNat ≤ t0.toNat + 50 := by
  rw [isFireAuthorized_eq_authorised]
  apply Iff.intro
  · intro hopen
    rcases hopen with ⟨since, hs, hlo, hhi⟩
    have ⟨t0, ht0⟩ := exists_timestamp hs
    subst ht0
    have ⟨pre, seqId, post, hc, hpost, hlast⟩ := (after_eq_armed_iff calls t0).mp hs
    exact ⟨pre, t0, seqId, post, hc, hpost, hlast, hlo, hhi⟩
  · intro hopen
    rcases hopen with ⟨pre, t0, seqId, post, hc, hpost, hlast, hlo, hhi⟩
    have hs := (after_eq_armed_iff calls t0).mpr ⟨pre, seqId, post, hc, hpost, hlast⟩
    exact ⟨t0.toNat, hs, hlo, hhi⟩

theorem isFireAuthorized_concat_arm (pre : List KeyCall) (t0 seqId t : BitVec 32) :
    (runCalls (pre ++ [.arm t0 seqId])).isFireAuthorized t = false := by
  rw [← Bool.not_eq_true, isFireAuthorized_eq_authorised, after_concat_arm]
  intro hopen
  rcases hopen with ⟨since, hs, -⟩
  cases hs

/-- **Firing is authorised by the last arming and its own token only.**  The query answers true
exactly when the last arm or disarm is an arming at `t0`, the last fire key write after it is the
fire token, and the time lies in `[t0, t0 + 50]` over the natural numbers.  Nothing before an arming
counts, an arming without a token of its own authorises nothing, and no sequence counter has any
influence. -/
theorem fireAuthorized_history :
    (∀ (calls : List KeyCall) (t : BitVec 32),
      (runCalls calls).isFireAuthorized t = true ↔
        ∃ pre t0 seqId post, calls = pre ++ .arm t0 seqId :: post ∧
          (∀ c ∈ post, c.resets = false) ∧ lastFireKeyWrite post = some fireMagic ∧
          t0.toNat ≤ t.toNat ∧ t.toNat ≤ t0.toNat + 50) ∧
    (∀ (pre post : List KeyCall) (t0 seqId t : BitVec 32),
      (runCalls (pre ++ .arm t0 seqId :: post)).isFireAuthorized t =
        (runCalls (.arm t0 seqId :: post)).isFireAuthorized t) ∧
    (∀ (pre : List KeyCall) (t0 seqId t : BitVec 32),
      (runCalls (pre ++ [.arm t0 seqId])).isFireAuthorized t = false) ∧
    (∀ (calls : List KeyCall) (t : BitVec 32),
      (runCalls (calls.map KeyCall.dropSequenceId)).isFireAuthorized t =
        (runCalls calls).isFireAuthorized t) := by
  refine ⟨isFireAuthorized_runCalls_iff, fun pre post t0 seqId t => ?_, isFireAuthorized_concat_arm,
    fun calls t => ?_⟩
  · exact isFireAuthorized_congr (Interlock.after_arm _ _ _ _ rfl) t
  · exact isFireAuthorized_congr (after_dropSequenceId calls) t

end Bms.SafetyKeys
