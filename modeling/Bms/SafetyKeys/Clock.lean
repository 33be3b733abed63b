import Bms.SafetyKeys.History

/-!
# The guard key on a real clock

The timestamps passed to the key are the low 32 bits of an unbounded count of milliseconds.  The key
is compared here with the window of real time that an arming is meant to open: the two agree within
one epoch of the counter and part when the counter wraps.
-/

open Bms.Types Bms.Reasoning

namespace Bms.SafetyKeys

open PyroTriggerKey

-- The 32-bit system timestamp at a real instant.
def timestamp (now : ℕ) : BitVec 32 := BitVec.ofNat 32 now

inductive KeyAction
  | arm (seqId : BitVec 32)
  | disarm
  | writeFireKey (word : BitVec 32)
  | query
deriving DecidableEq, Repr

structure ClockedAction where
  now : ℕ
  action : KeyAction
deriving DecidableEq, Repr

namespace ClockedAction

def exec (key : PyroTriggerKey) (c : ClockedAction) : PyroTriggerKey :=
  match c.action with
  | .arm seqId => key.arm (timestamp c.now) seqId
  | .disarm => key.disarm
  | .writeFireKey word => key.writeFireKey word
  | .query => key -- the query is a const member function

def isArm (c : ClockedAction) : Bool :=
  match c.action with
  | .arm _ => true
  | _ => false

def fireKeyWrite? (c : ClockedAction) : Option (BitVec 32) :=
  match c.action with
  | .writeFireKey word => some word
  | _ => none

def event (c : ClockedAction) : Interlock.Event ℕ :=
  match c.action with
  | .arm _ => .arm c.now
  | .disarm => .disarm
  | .writeFireKey word => .token (word == fireMagic)
  | .query => .pass

theorem event_token? (c : ClockedAction) : c.event.token? = c.fireKeyWrite?.map (· == fireMagic) := by
  rcases c with ⟨now, action⟩
  cases action <;> rfl

theorem event_ne_arm {c : ClockedAction} (h : c.isArm = false) (now : ℕ) : c.event ≠ .arm now := by
  rcases c with ⟨t, action⟩
  cases action <;> simp_all [event, isArm]

theorem event_resets_of_not_arm {c : ClockedAction} (h : c.isArm = false) :
    c.event.resets = false ↔ c.action ≠ .disarm := by
  rcases c with ⟨t, action⟩
  cases action <;> simp_all [event, isArm, Interlock.Event.resets]

end ClockedAction

/-- A run on the real clock: its actions stand in the order of time. -/
structure ClockedRun where
  actions : List ClockedAction
  nonDecreasing : actions.Pairwise fun c d => c.now ≤ d.now

def ClockedRun.key (r : ClockedRun) : PyroTriggerKey := r.actions.foldl ClockedAction.exec {}

-- The interlock that the run means, on real time.
def ClockedRun.interlock (r : ClockedRun) : Interlock ℕ :=
  Interlock.after ClockedAction.event r.actions

def lastTokenWrite (actions : List ClockedAction) : Option (BitVec 32) :=
  (actions.filterMap ClockedAction.fireKeyWrite?).getLast?

/-! ## The key implements the interlock on real time, up to the epoch of the counter -/

theorem implements_clocked_exec {key : PyroTriggerKey} {s : Interlock ℕ} (h : Implements key s)
    (c : ClockedAction) : Implements (c.exec key) (s.next c.event) := by
  rcases c with ⟨now, action⟩
  cases action with
  | arm seqId => exact implements_arm key now seqId
  | disarm => exact implements_disarm key
  | writeFireKey word => exact implements_writeFireKey h word
  | query => cases s <;> exact h

theorem ClockedRun.implements (r : ClockedRun) : Implements r.key r.interlock :=
  implements_foldl ClockedAction.exec ClockedAction.event implements_clocked_exec implements_default
    r.actions

/-- As long as the counter stays in the epoch of the last arming, the key answers as the interlock
on real time does. -/
theorem isFireAuthorized_iff_authorised (r : ClockedRun) (T : ℕ)
    (hepoch : ∀ since token, r.interlock = .armed since token → since / 2 ^ 32 = T / 2 ^ 32) :
    r.key.isFireAuthorized (timestamp T) = true ↔ r.interlock.Authorised 50 T := by
  unfold timestamp Interlock.Authorised
  rw [r.implements.isFireAuthorized_iff T]
  apply exists_congr
  intro since
  apply and_congr_right
  intro hs
  exact shownInWindow_of_div_eq (hepoch since true hs)

theorem interlock_ready_iff (r : ClockedRun) {pre post : List ClockedAction} {A : ℕ}
    {seqId : BitVec 32} (hrun : r.actions = pre ++ ⟨A, .arm seqId⟩ :: post)
    (hlast : ∀ c ∈ post, c.isArm = false) (since : ℕ) :
    r.interlock = .armed since true ↔
      since = A ∧ (∀ c ∈ post, c.action ≠ .disarm) ∧ lastTokenWrite post = some fireMagic := by
  unfold ClockedRun.interlock
  rw [hrun, Interlock.after_append, Interlock.after_cons]
  show Interlock.after ClockedAction.event post (.armed A false) = _ ↔ _
  rw [Interlock.after_armed_eq_iff _ _ _ _ fun c hc => ClockedAction.event_ne_arm (hlast c hc),
    Interlock.lastToken_iff fireMagic _ _ ClockedAction.event_token?]
  apply and_congr_right
  intro _
  apply and_congr_left
  intro _
  exact forall₂_congr fun c hc => ClockedAction.event_resets_of_not_arm (hlast c hc)

theorem isFireAuthorized_after_arm (r : ClockedRun) {pre post : List ClockedAction} {A : ℕ}
    {seqId : BitVec 32} (hrun : r.actions = pre ++ ⟨A, .arm seqId⟩ :: post)
    (hlast : ∀ c ∈ post, c.isArm = false) (T : ℕ) :
    r.key.isFireAuthorized (timestamp T) = true ↔
      (∀ c ∈ post, c.action ≠ .disarm) ∧ lastTokenWrite post = some fireMagic ∧
        ShownInWindow (2 ^ 32) 50 A T := by
  unfold timestamp
  rw [r.implements.isFireAuthorized_iff T]
  simp only [interlock_ready_iff r hrun hlast, and_assoc, exists_eq_left]

/-! ## Expiry -/

/-- **When an expired arming stays closed.**  After an arming at `A`, with no further arming, the
query at an instant `T > A + 50` answers false exactly when the token was withdrawn (a disarm came,
or the last fire key write is not the fire token) or the shown value of `T` misses the shown window
of `A`.  That is so at every instant less than a full turn of the counter after `A`. -/
theorem expired_refused_iff (r : ClockedRun) (pre post : List ClockedAction) (A T : ℕ)
    (seqId : BitVec 32) (hrun : r.actions = pre ++ ⟨A, .arm seqId⟩ :: post)
    (hlast : ∀ c ∈ post, c.isArm = false) (hT : A + 50 < T) :
    (r.key.isFireAuthorized (timestamp T) = false ↔
      (∃ c ∈ post, c.action = .disarm) ∨ lastTokenWrite post ≠ some fireMagic ∨
        T % 2 ^ 32 < A % 2 ^ 32 ∨ A % 2 ^ 32 + 50 < T % 2 ^ 32) ∧
    (T < A + 2 ^ 32 → r.key.isFireAuthorized (timestamp T) = false) := by
  have hanswer := isFireAuthorized_after_arm r hrun hlast T
  apply And.intro
  · rw [← Bool.not_eq_true, hanswer, not_and_or, not_and_or]
    apply or_congr
    · simp only [ne_eq, not_forall, not_not, exists_prop]
    · apply or_congr_right
      unfold ShownInWindow
      omega
  · intro hturn
    rw [← Bool.not_eq_true, hanswer]
    intro hopen
    exact not_shownInWindow_of_lt_turn hT hturn hopen.2.2

-- An arming at 1000 ms, the fire token, and no disarm.
def staleTokenRun : ClockedRun where
  actions := [⟨1000, .arm 42#32⟩, ⟨1010, .writeFireKey fireMagic⟩]
  nonDecreasing := by decide

theorem expired_refused_staleToken : staleTokenRun.key.isFireAuthorized (timestamp 1051) = false :=
  (expired_refused_iff staleTokenRun [] [⟨1010, .writeFireKey fireMagic⟩] 1000 1051 42#32 rfl
    (by decide) (by decide)).2 (by decide)

-- One turn of the counter later the token that expired at 1050 ms is accepted again.
theorem expiry_not_permanent :
    ¬ ∀ (r : ClockedRun) (pre post : List ClockedAction) (A T : ℕ) (seqId : BitVec 32),
      r.actions = pre ++ ⟨A, .arm seqId⟩ :: post → (∀ c ∈ post, c.isArm = false) →
      (∀ c ∈ r.actions, c.now ≤ T) → A + 50 < T →
      r.key.isFireAuthorized (timestamp T) = false := by
  intro h
  have hfalse := h staleTokenRun [] [⟨1010, .writeFireKey fireMagic⟩] 1000 (1000 + 2 ^ 32) 42#32
    rfl (by decide) (by decide) (by decide)
  have htrue : staleTokenRun.key.isFireAuthorized (timestamp (1000 + 2 ^ 32)) = true := by decide
  rw [htrue] at hfalse
  cases hfalse

/-! ## Requests inside the window -/

/-- **A request inside the window is granted unless the counter wrapped.**  The arming at `A` carries
its token and nothing came since; the query at `T` in `[A, A + 50]` answers true exactly when the
counter shows both instants in one epoch.  Otherwise the clock-reversal guard refuses. -/
theorem windowRequest_granted_iff (r : ClockedRun) (pre post : List ClockedAction) (A T : ℕ)
    (seqId : BitVec 32) (hrun : r.actions = pre ++ ⟨A, .arm seqId⟩ :: post)
    (hlast : ∀ c ∈ post, c.isArm = false) (hdisarm : ∀ c ∈ post, c.action ≠ .disarm)
    (htoken : lastTokenWrite post = some fireMagic) (hlo : A ≤ T) (hhi : T ≤ A + 50) :
    r.key.isFireAuthorized (timestamp T) = true ↔ A / 2 ^ 32 = T / 2 ^ 32 := by
  rw [isFireAuthorized_after_arm r hrun hlast T, shownInWindow_iff_div_eq (by decide) hlo hhi]
  exact ⟨fun h => h.2.2, fun h => ⟨hdisarm, htoken, h⟩⟩

-- An arming 10 ms before the counter wraps, with the fire token.
def wrapRun : ClockedRun where
  actions := [⟨2 ^ 32 - 10, .arm 7#32⟩, ⟨2 ^ 32 - 10, .writeFireKey fireMagic⟩]
  nonDecreasing := by decide

theorem windowRequest_granted_beforeWrap :
    wrapRun.key.isFireAuthorized (timestamp (2 ^ 32 - 1)) = true :=
  (windowRequest_granted_iff wrapRun [] [⟨2 ^ 32 - 10, .writeFireKey fireMagic⟩] (2 ^ 32 - 10)
    (2 ^ 32 - 1) 7#32 rfl (by decide) (by decide) (by decide) (by decide) (by decide)).mpr
    (by decide)

theorem windowRequest_refused_afterWrap :
    ¬ ∀ (r : ClockedRun) (pre post : List ClockedAction) (A T : ℕ) (seqId : BitVec 32),
      r.actions = pre ++ ⟨A, .arm seqId⟩ :: post → (∀ c ∈ post, c.isArm = false) →
      (∀ c ∈ post, c.action ≠ .disarm) → lastTokenWrite post = some fireMagic →
      A ≤ T → T ≤ A + 50 → r.key.isFireAuthorized (timestamp T) = true := by
  intro h
  have htrue := h wrapRun [] [⟨2 ^ 32 - 10, .writeFireKey fireMagic⟩] (2 ^ 32 - 10) (2 ^ 32 + 10)
    7#32 rfl (by decide) (by decide) (by decide) (by decide) (by decide)
  have hfalse : wrapRun.key.isFireAuthorized (timestamp (2 ^ 32 + 10)) = false := by decide
  rw [hfalse] at htrue
  cases htrue

end Bms.SafetyKeys
