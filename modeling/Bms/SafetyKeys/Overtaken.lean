import Bms.SafetyKeys.Preemption

/-!
# Queries overtaken by calls

The firing query loads its fields one by one, so a task that asks without a critical section may be
preempted in between.  While whole calls do so that only write tokens and disarm, and the timestamp of
the query is above 50, the answer is the one the key gave when the fire key was loaded, or a refusal.
An `arm` in between can lend its timestamp to an old token, and where single stores come in between,
it can slip one past the guard against a clock that runs backwards.
-/

open Bms.Types Bms.Reasoning

namespace Bms.SafetyKeys

open PyroTriggerKey

/-- The query whose loads of `arm_key`, `fire_key` and, twice, `armed_at_ms` see the key as it is at
that moment. -/
def overtakenQuery (key₀ key₁ key₂ key₃ : PyroTriggerKey) (currentTimeMs : BitVec 32) : Bool :=
  if key₀.armKey != armMagic || key₁.fireKey != fireMagic then
    false
  else if currentTimeMs < key₂.armedAtMs then
    false
  else
    currentTimeMs - key₃.armedAtMs ≤ armWindowTimeoutMs

def execAll (key : PyroTriggerKey) (calls : List KeyCall) : PyroTriggerKey :=
  calls.foldl KeyCall.exec key

-- Nothing happens between the loads.
theorem overtakenQuery_self (key : PyroTriggerKey) (t : BitVec 32) :
    overtakenQuery key key key key t = key.isFireAuthorized t := rfl

/-! ## Calls that arm nothing -/

def KeyCall.arms : KeyCall → Bool
  | .arm .. => true
  | _ => false

theorem execAll_concat (key : PyroTriggerKey) (calls : List KeyCall) (c : KeyCall) :
    execAll key (calls ++ [c]) = c.exec (execAll key calls) := List.foldl_concat ..

-- Token writes leave the arm key and the timestamp alone.
theorem execAll_tokens {calls : List KeyCall} (h : ∀ c ∈ calls, c.resets = false)
    (key : PyroTriggerKey) :
    (execAll key calls).armKey = key.armKey ∧ (execAll key calls).armedAtMs = key.armedAtMs := by
  induction calls using List.reverseRecOn with
  | nil => exact ⟨rfl, rfl⟩
  | append_singleton calls c ih =>
    have ⟨hcalls, hc⟩ := List.forall_mem_append.mp h
    rw [execAll_concat]
    cases c with
    | arm timestampMs seqId =>
      have hfalse := hc _ (List.mem_singleton_self _)
      exact absurd hfalse Bool.noConfusion
    | disarm =>
      have hfalse := hc _ (List.mem_singleton_self _)
      exact absurd hfalse Bool.noConfusion
    | writeFireKey word => exact ih hcalls

-- A disarmed key keeps its zero timestamp until the next arming.
theorem execAll_disarmed {calls : List KeyCall} (harm : ∀ c ∈ calls, c.arms = false)
    (hdisarm : KeyCall.disarm ∈ calls) (key : PyroTriggerKey) :
    (execAll key calls).armKey = 0#32 ∧ (execAll key calls).armedAtMs = 0#32 := by
  induction calls using List.reverseRecOn with
  | nil => exact absurd hdisarm List.not_mem_nil
  | append_singleton calls c ih =>
    have ⟨hcalls, hc⟩ := List.forall_mem_append.mp harm
    rw [execAll_concat]
    cases c with
    | arm timestampMs seqId =>
      have hfalse := hc _ (List.mem_singleton_self _)
      exact absurd hfalse Bool.noConfusion
    | disarm => exact ⟨rfl, rfl⟩
    | writeFireKey word =>
      have hmem : KeyCall.disarm ∈ calls := by simpa using hdisarm
      exact ih hcalls hmem

theorem resets_eq_false {c : KeyCall} (harm : c.arms = false) (hdisarm : c ≠ .disarm) :
    c.resets = false := by
  cases c with
  | arm timestampMs seqId => exact absurd harm Bool.noConfusion
  | disarm => exact absurd rfl hdisarm
  | writeFireKey word => rfl

/-! ## The overtaken query -/

-- A zero timestamp opens no window for query timestamps above 50.
theorem overtakenQuery_of_zero {key₀ key₁ key₂ key₃ : PyroTriggerKey} {t : BitVec 32}
    (hzero : key₃.armedAtMs = 0#32) (ht : 50 < t.toNat) :
    overtakenQuery key₀ key₁ key₂ key₃ t = false := by
  have hlate : ¬ t - key₃.armedAtMs ≤ armWindowTimeoutMs := by
    rw [hzero, BitVec.sub_zero, BitVec.le_def]
    show ¬ t.toNat ≤ 50
    omega
  unfold overtakenQuery
  rw [decide_eq_false hlate]
  simp only [ite_self]

theorem overtakenQuery_of_eq {key₀ key₁ key₂ key₃ : PyroTriggerKey}
    (harm : key₀.armKey = key₁.armKey) (hsince₂ : key₂.armedAtMs = key₁.armedAtMs)
    (hsince₃ : key₃.armedAtMs = key₁.armedAtMs) (t : BitVec 32) :
    overtakenQuery key₀ key₁ key₂ key₃ t = key₁.isFireAuthorized t := by
  unfold overtakenQuery isFireAuthorized
  rw [harm, hsince₂, hsince₃]

theorem isFireAuthorized_of_disarmed {calls : List KeyCall} (harm : ∀ c ∈ calls, c.arms = false)
    (hdisarm : KeyCall.disarm ∈ calls) (key : PyroTriggerKey) (t : BitVec 32) :
    (execAll key calls).isFireAuthorized t = false := by
  apply isFireAuthorized_of_armKey_ne
  rw [(execAll_disarmed harm hdisarm key).1]
  decide

-- Between the loads only tokens are written.
theorem overtakenQuery_of_tokens (key : PyroTriggerKey) {calls₁ calls₂ calls₃ : List KeyCall}
    (htokens : ∀ c ∈ calls₁ ++ calls₂ ++ calls₃, c.resets = false) (t : BitVec 32) :
    overtakenQuery key (execAll key calls₁) (execAll key (calls₁ ++ calls₂))
        (execAll key (calls₁ ++ calls₂ ++ calls₃)) t = (execAll key calls₁).isFireAuthorized t := by
  have ⟨htokens₁₂, _⟩ := List.forall_mem_append.mp htokens
  have ⟨htokens₁, _⟩ := List.forall_mem_append.mp htokens₁₂
  have ⟨harm₁, hsince₁⟩ := execAll_tokens htokens₁ key
  have hsince₂ := (execAll_tokens htokens₁₂ key).2
  have hsince₃ := (execAll_tokens htokens key).2
  exact overtakenQuery_of_eq harm₁.symm (hsince₂.trans hsince₁.symm) (hsince₃.trans hsince₁.symm) t

/-- **Queries overtaken by disarms and token writes.**  Let calls that arm nothing run between the
loads of a query whose 32-bit timestamp is above 50.  The query answers true exactly when the key
would authorise at the moment its fire key was loaded and no call disarmed it after. -/
theorem overtakenQuery_iff (key : PyroTriggerKey) (calls₁ calls₂ calls₃ : List KeyCall)
    (t : BitVec 32) (harm : ∀ c ∈ calls₁ ++ calls₂ ++ calls₃, c.arms = false)
    (ht : 50 < t.toNat) :
    overtakenQuery key (execAll key calls₁) (execAll key (calls₁ ++ calls₂))
        (execAll key (calls₁ ++ calls₂ ++ calls₃)) t = true ↔
      (execAll key calls₁).isFireAuthorized t = true ∧
        ∀ c ∈ calls₂ ++ calls₃, c ≠ .disarm := by
  by_cases hdisarm : KeyCall.disarm ∈ calls₁ ++ calls₂ ++ calls₃
  · rw [overtakenQuery_of_zero (execAll_disarmed harm hdisarm key).2 ht]
    apply iff_of_false Bool.false_ne_true
    intro hopen
    have hlater : KeyCall.disarm ∉ calls₂ ++ calls₃ := fun hmem => hopen.2 _ hmem rfl
    rw [List.append_assoc] at harm hdisarm
    -- The key was disarmed before its fire key was loaded.
    have hearlier := (List.mem_append.mp hdisarm).resolve_right hlater
    rw [isFireAuthorized_of_disarmed (List.forall_mem_append.mp harm).1 hearlier] at hopen
    exact Bool.false_ne_true hopen.1
  · have htokens : ∀ c ∈ calls₁ ++ calls₂ ++ calls₃, c.resets = false := by
      intro c hc
      exact resets_eq_false (harm c hc) fun h => hdisarm (h ▸ hc)
    rw [overtakenQuery_of_tokens key htokens t]
    apply Iff.intro
    · intro hopen
      refine ⟨hopen, fun c hc h => hdisarm ?_⟩
      rw [List.append_assoc, ← h]
      exact List.mem_append_right _ hc
    · intro hopen
      exact hopen.1

-- The token arrives after the arm key has been loaded.
theorem overtakenQuery_lateToken :
    overtakenQuery (runCalls [.arm 1000#32 1#32])
      (execAll (runCalls [.arm 1000#32 1#32]) [.writeFireKey fireMagic])
      (execAll (runCalls [.arm 1000#32 1#32]) [.writeFireKey fireMagic])
      (execAll (runCalls [.arm 1000#32 1#32]) [.writeFireKey fireMagic]) 1020#32 = true :=
  (overtakenQuery_iff (runCalls [.arm 1000#32 1#32]) [.writeFireKey fireMagic] [] [] 1020#32
    (by decide) (by decide)).mpr ⟨by decide, by decide⟩

-- An old token meets the timestamp of an arming that clears it.
example : overtakenQuery (runCalls [.arm 100#32 1#32, .writeFireKey fireMagic])
    (runCalls [.arm 100#32 1#32, .writeFireKey fireMagic])
    (runCalls [.arm 100#32 1#32, .writeFireKey fireMagic, .arm 1000#32 2#32])
    (runCalls [.arm 100#32 1#32, .writeFireKey fireMagic, .arm 1000#32 2#32]) 1020#32 = true := by
  decide

/-! ## Loads among the stores of other tasks -/

-- The query in plain arithmetic.  Its two loads of `armed_at_ms` may differ, and then the difference
-- can wrap behind the guard.
theorem overtakenQuery_eq_true_iff {key₀ key₁ key₂ key₃ : PyroTriggerKey} {t : BitVec 32} :
    overtakenQuery key₀ key₁ key₂ key₃ t = true ↔
      key₀.armKey = armMagic ∧ key₁.fireKey = fireMagic ∧ key₂.armedAtMs.toNat ≤ t.toNat ∧
        (key₃.armedAtMs.toNat ≤ t.toNat ∧ t.toNat ≤ key₃.armedAtMs.toNat + 50 ∨
          t.toNat + 2 ^ 32 ≤ key₃.armedAtMs.toNat + 50) := by
  have hwindow : t - key₃.armedAtMs ≤ armWindowTimeoutMs ↔
      key₃.armedAtMs.toNat ≤ t.toNat ∧ t.toNat ≤ key₃.armedAtMs.toNat + 50 ∨
        t.toNat + 2 ^ 32 ≤ key₃.armedAtMs.toNat + 50 := by
    rw [BitVec.le_def, BitVec.toNat_sub]
    show (2 ^ 32 - key₃.armedAtMs.toNat + t.toNat) % 2 ^ 32 ≤ 50 ↔ _
    have ht := t.isLt
    have hsince := key₃.armedAtMs.isLt
    omega
  unfold overtakenQuery
  by_cases hkeys : key₀.armKey = armMagic ∧ key₁.fireKey = fireMagic
  · rw [if_neg (by simp [hkeys])]
    by_cases hguard : t < key₂.armedAtMs
    · rw [if_pos hguard]
      rw [BitVec.lt_def] at hguard
      simp only [Bool.false_eq_true, false_iff]
      omega
    · rw [if_neg hguard, decide_eq_true_iff, hwindow]
      rw [BitVec.lt_def, not_lt] at hguard
      simp only [hkeys, hguard, true_and]
  · rw [if_pos (by simpa [imp_iff_not_or] using not_and_or.mp hkeys)]
    apply iff_of_false Bool.false_ne_true
    intro h
    exact hkeys ⟨h.1, h.2.1⟩

variable {κ : Type}

def keyAfter (sched : List (κ × KeyWrite)) : PyroTriggerKey := runSchedule keyFile.write {} sched

-- The timestamp that a load sees: the last one stored, or the zero of a new key.
def ShowsTimestamp (sched : List (κ × KeyWrite)) (since : BitVec 32) : Prop :=
  (∃ k, LastStore sched k .armedAtMs since) ∨ since = 0#32 ∧ ∀ e ∈ sched, e.2.1 ≠ .armedAtMs

theorem eq_armedAtMs_iff {sched : List (κ × KeyWrite)} {since : BitVec 32} :
    since = (keyAfter sched).armedAtMs ↔ ShowsTimestamp sched since := armedAtMs_eq_iff

theorem mem_or_lastStore_of_append {m post : List (κ × KeyWrite)} {k : κ} {field : KeyField}
    {word : BitVec 32} (h : LastStore (m ++ post) k field word) :
    (k, (⟨field, word⟩ : KeyWrite)) ∈ post ∨ LastStore m k field word := by
  have ⟨l, r, hsplit, hlater⟩ := h
  rcases List.append_eq_append_iff.mp hsplit with ⟨c, _, hpost⟩ | ⟨c, hm, hr⟩
  · rw [hpost]
    exact Or.inl (List.mem_append_right _ List.mem_cons_self)
  · cases c with
    | nil =>
      rw [List.nil_append] at hr
      rw [← hr]
      exact Or.inl List.mem_cons_self
    | cons e c =>
      have ⟨he, hrest⟩ := List.cons_eq_cons.mp hr
      refine Or.inr ⟨l, c, by rw [hm, ← he], fun x hx => hlater x ?_⟩
      rw [hrest]
      exact List.mem_append_left _ hx

-- A timestamp past the time that an earlier load was not past was stored after that load.
theorem arm_after_guard [DecidableEq κ] {tasks : κ → List KeyCall} {sched m post : List (κ × KeyWrite)}
    (hs : Interleaves (fun k => callStores (tasks k)) sched) (hpre : m ++ post <+: sched)
    {guarded since t : BitVec 32} (hguarded : ShowsTimestamp m guarded)
    (hsince : ShowsTimestamp (m ++ post) since) (hle : guarded.toNat ≤ t.toNat)
    (hlt : t.toNat < since.toNat) :
    ∃ k seqId, KeyCall.arm since seqId ∈ tasks k ∧ (k, (⟨.armedAtMs, since⟩ : KeyWrite)) ∈ post := by
  rcases hsince with ⟨k, hk⟩ | ⟨hzero, _⟩
  · have hpost : (k, (⟨.armedAtMs, since⟩ : KeyWrite)) ∈ post := by
      rcases mem_or_lastStore_of_append hk with hpost | hm
      · exact hpost
      · -- Both loads then see the same store.
        have hsame := eq_armedAtMs_iff.mpr (Or.inl ⟨k, hm⟩)
        rw [← eq_armedAtMs_iff.mpr hguarded] at hsame
        rw [hsame] at hlt
        omega
    have ⟨c, hc, hstore⟩ := exists_call_of_lastStore hs hpre hk
    rcases timestamp_of_stores hstore with ⟨seqId, harm⟩ | hzero
    · exact ⟨k, seqId, harm ▸ hc, hpost⟩
    · rw [hzero] at hlt
      exact absurd hlt (Nat.not_lt_zero _)
  · rw [hzero] at hlt
    exact absurd hlt (Nat.not_lt_zero _)

/-- **Queries overtaken by single stores.**  Let each load of a query fall at some moment of an
interleaving of the tasks' field stores.  The query answers true exactly when the arm word was the
last store at its first load and the token at its second, the timestamp at the third is not past the
time, and the window of the timestamp at the fourth is open, or opens across the wrap.  That
timestamp is past the time, behind the guard, only by an `arm` that stored it between the last two
loads. -/
theorem preemptedQuery_iff (n : ℕ) (tasks : Fin n → List KeyCall)
    (sched m₀ m₁ m₂ post : List (Fin n × KeyWrite))
    (hs : Interleaves (fun k => callStores (tasks k)) sched) (hpre : m₂ ++ post <+: sched)
    (t : BitVec 32) :
    (overtakenQuery (keyAfter m₀) (keyAfter m₁) (keyAfter m₂) (keyAfter (m₂ ++ post)) t = true ↔
      (∃ k, LastStore m₀ k .armKey armMagic) ∧ (∃ k, LastStore m₁ k .fireKey fireMagic) ∧
        ∃ guarded since, ShowsTimestamp m₂ guarded ∧ ShowsTimestamp (m₂ ++ post) since ∧
          guarded.toNat ≤ t.toNat ∧
          (since.toNat ≤ t.toNat ∧ t.toNat ≤ since.toNat + 50 ∨
            t.toNat + 2 ^ 32 ≤ since.toNat + 50)) ∧
    ∀ guarded since, ShowsTimestamp m₂ guarded → ShowsTimestamp (m₂ ++ post) since →
      guarded.toNat ≤ t.toNat → t.toNat < since.toNat →
      ∃ k seqId, KeyCall.arm since seqId ∈ tasks k ∧
        (k, (⟨.armedAtMs, since⟩ : KeyWrite)) ∈ post := by
  have harm : (keyAfter m₀).armKey = armMagic ↔ ∃ k, LastStore m₀ k .armKey armMagic :=
    load_eq_magic_iff m₀ .armKey armMagic (by decide)
  have hfire : (keyAfter m₁).fireKey = fireMagic ↔ ∃ k, LastStore m₁ k .fireKey fireMagic :=
    load_eq_magic_iff m₁ .fireKey fireMagic (by decide)
  apply And.intro
  · simp only [overtakenQuery_eq_true_iff, harm, hfire, ← eq_armedAtMs_iff, exists_and_left,
      exists_eq_left]
  · intro guarded since hguarded hsince hle hlt
    exact arm_after_guard hs hpre hguarded hsince hle hlt

-- An arming at 5 ms whose timestamp is overwritten, between the last two loads, by a task with a clock
-- that has not wrapped yet.
def wrappedRearming (k k' : κ) : List (κ × KeyWrite) :=
  tagged k (callStores [.arm 5#32 1#32, .writeFireKey fireMagic]) ++
    tagged k' (callStores [.arm 0xFFFFFFF0#32 2#32])

theorem preemptedQuery_behindGuard :
    let stores : List (Fin 2 × KeyWrite) := wrappedRearming 0 1
    overtakenQuery (keyAfter (stores.take 5)) (keyAfter (stores.take 5)) (keyAfter (stores.take 5))
      (keyAfter (stores.take 8)) 10#32 = true := by
  intro stores
  have h := preemptedQuery_iff 2
    ![[.arm 5#32 1#32, .writeFireKey fireMagic], [.arm 0xFFFFFFF0#32 2#32]] stores
    (stores.take 5) (stores.take 5) (stores.take 5) ((stores.drop 5).take 3) (by decide)
    (List.take_prefix 8 stores) 10#32
  apply h.1.mpr
  refine ⟨⟨0, [], _, rfl, by decide⟩, ⟨0, stores.take 4, [], rfl, by decide⟩, 5#32, 0xFFFFFFF0#32,
    Or.inl ⟨0, stores.take 2, _, rfl, by decide⟩, Or.inl ⟨1, stores.take 7, [], rfl, by decide⟩,
    by decide, Or.inr (by decide)⟩

end Bms.SafetyKeys
