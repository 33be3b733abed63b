import Bms.Reasoning.RegisterFile
import Bms.SafetyKeys.Interruption

/-!
# Calls on the guard key without critical sections

Tasks call the operations of the key and preempt one another between field stores.  At any moment the
key holds the last word stored to each field, so a fire token counts as long as no call has cleared
it since, but it may meet an arm word and a timestamp of different calls.  Calls that race can leave
any mixture of what they store.
-/

open Bms.Types Bms.Reasoning

namespace Bms.SafetyKeys

open PyroTriggerKey

abbrev KeyWrite := (_ : KeyField) × BitVec 32

/-- The four fields of the key, stored one by one. -/
def keyFile : RegisterFile PyroTriggerKey KeyField fun _ => BitVec 32 where
  get := load
  set := store
  get_set_self := load_store_self
  get_set_of_ne key field _ word h := load_store_of_ne key word h
  ext key key' h := by
    cases key
    cases key'
    congr
    · exact h .armKey
    · exact h .fireKey
    · exact h .armedAtMs
    · exact h .sequenceId

def asWrites (stores : List (KeyField × BitVec 32)) : List KeyWrite :=
  stores.map fun s => ⟨s.1, s.2⟩

def KeyCall.stores : KeyCall → List (KeyField × BitVec 32)
  | .arm timestampMs seqId => armStores timestampMs seqId
  | .disarm => disarmStores
  | .writeFireKey word => [(.fireKey, word)]

theorem exec_eq_run (key : PyroTriggerKey) (c : KeyCall) :
    c.exec key = keyFile.run (asWrites c.stores) key := by
  cases c <;> rfl

/-! ## Preempted calls -/

-- The stores of a task, in the order in which it makes them.
def callStores (calls : List KeyCall) : List KeyWrite := calls.flatMap fun c => asWrites c.stores

-- Calls that are never preempted.
theorem run_callStores (calls : List KeyCall) : keyFile.run (callStores calls) {} = runCalls calls := by
  induction calls using List.reverseRecOn with
  | nil => rfl
  | append_singleton calls c ih =>
    have hlast : callStores [c] = asWrites c.stores := List.flatMap_singleton ..
    rw [callStores, List.flatMap_append]
    show keyFile.run (callStores calls ++ callStores [c]) {} = (calls ++ [c]).foldl KeyCall.exec {}
    rw [hlast, List.foldl_concat]
    show _ = c.exec (runCalls calls)
    rw [← ih, exec_eq_run]
    exact List.foldl_append

variable {κ : Type}

/-- The last store to the field is one of `word` by task `k`. -/
def LastStore (sched : List (κ × KeyWrite)) (k : κ) (field : KeyField) (word : BitVec 32) : Prop :=
  ∃ pre post, sched = pre ++ (k, ⟨field, word⟩) :: post ∧ ∀ e ∈ post, e.2.1 ≠ field

theorem lastWrite_iff_lastStore {sched : List (κ × KeyWrite)} {field : KeyField}
    {word : BitVec 32} :
    lastWrite field (sched.map Prod.snd) = some word ↔ ∃ k, LastStore sched k field word :=
  lastWrite_schedule_iff

theorem load_runSchedule (key : PyroTriggerKey) (sched : List (κ × KeyWrite)) (field : KeyField) :
    (runSchedule keyFile.write key sched).load field =
      (lastWrite field (sched.map Prod.snd)).getD (key.load field) := by
  rw [keyFile.runSchedule_eq_run]
  exact keyFile.get_run _ key field

-- A magic word is in place when it was the last to be stored.
theorem load_eq_magic_iff (sched : List (κ × KeyWrite)) (field : KeyField) (magic : BitVec 32)
    (hmagic : ({} : PyroTriggerKey).load field ≠ magic) :
    (runSchedule keyFile.write {} sched).load field = magic ↔
      ∃ k, LastStore sched k field magic := by
  rw [load_runSchedule, ← lastWrite_iff_lastStore]
  cases lastWrite field (sched.map Prod.snd) with
  | none => exact iff_of_false hmagic fun h => by cases h
  | some word => rw [Option.getD_some, Option.some.injEq]

theorem lastWrite_eq_none_iff {sched : List (κ × KeyWrite)} {field : KeyField} :
    lastWrite field (sched.map Prod.snd) = none ↔ ∀ e ∈ sched, e.2.1 ≠ field := by
  rw [lastWrite_eq_none, List.forall_mem_map]

-- The arming timestamp is the last one stored, or zero.
theorem armedAtMs_eq_iff {sched : List (κ × KeyWrite)} {since : BitVec 32} :
    since = (runSchedule keyFile.write {} sched).armedAtMs ↔
      (∃ k, LastStore sched k .armedAtMs since) ∨
        since = 0#32 ∧ ∀ e ∈ sched, e.2.1 ≠ .armedAtMs := by
  have hload := load_runSchedule {} sched .armedAtMs
  change (runSchedule keyFile.write {} sched).armedAtMs = _ at hload
  rw [hload, ← lastWrite_iff_lastStore, ← lastWrite_eq_none_iff]
  cases lastWrite .armedAtMs (sched.map Prod.snd) with
  | none =>
    apply Iff.intro
    · intro hzero
      exact Or.inr ⟨hzero, rfl⟩
    · intro hcase
      rcases hcase with hsome | hzero
      · cases hsome
      · exact hzero.1
  | some word =>
    apply Iff.intro
    · intro hword
      exact Or.inl (congrArg some hword.symm)
    · intro hcase
      rcases hcase with hsome | hzero
      · exact (Option.some.inj hsome).symm
      · cases hzero.2

theorem isFireAuthorized_schedule_iff (sched : List (κ × KeyWrite)) (t : BitVec 32) :
    (runSchedule keyFile.write {} sched).isFireAuthorized t = true ↔
      (∃ k, LastStore sched k .armKey armMagic) ∧ (∃ k, LastStore sched k .fireKey fireMagic) ∧
        ∃ since, ((∃ k, LastStore sched k .armedAtMs since) ∨
            since = 0#32 ∧ ∀ e ∈ sched, e.2.1 ≠ .armedAtMs) ∧
          since.toNat ≤ t.toNat ∧ t.toNat ≤ since.toNat + 50 := by
  have harm : (runSchedule keyFile.write {} sched).armKey = armMagic ↔
      ∃ k, LastStore sched k .armKey armMagic :=
    load_eq_magic_iff sched .armKey armMagic (by decide)
  have hfire : (runSchedule keyFile.write {} sched).fireKey = fireMagic ↔
      ∃ k, LastStore sched k .fireKey fireMagic :=
    load_eq_magic_iff sched .fireKey fireMagic (by decide)
  simp only [PyroTriggerKey.isFireAuthorized_iff, harm, hfire, ← armedAtMs_eq_iff, exists_eq_left]

-- Every store is made by a call of its task.
theorem exists_call_of_lastStore [DecidableEq κ] {tasks : κ → List KeyCall}
    {sched pre : List (κ × KeyWrite)} (hs : Interleaves (fun k => callStores (tasks k)) sched)
    (hpre : pre <+: sched) {k : κ} {field : KeyField} {word : BitVec 32}
    (h : LastStore pre k field word) : ∃ c ∈ tasks k, (field, word) ∈ c.stores := by
  have ⟨l, r, hsplit, _⟩ := h
  have hmem : (k, (⟨field, word⟩ : KeyWrite)) ∈ sched := by
    apply hpre.subset
    rw [hsplit]
    simp
  have hown := mem_ownSteps hmem
  rw [hs] at hown
  have ⟨c, hc, hstore⟩ := List.mem_flatMap.mp hown
  have ⟨s, hmem', hs'⟩ := List.mem_map.mp hstore
  refine ⟨c, hc, ?_⟩
  cases hs'
  exact hmem'

theorem eq_arm_of_stores_armMagic {c : KeyCall} (h : (.armKey, armMagic) ∈ c.stores) :
    ∃ timestampMs seqId, c = .arm timestampMs seqId := by
  cases c with
  | arm timestampMs seqId => exact ⟨timestampMs, seqId, rfl⟩
  | disarm =>
    have hnot : (KeyField.armKey, armMagic) ∉ disarmStores := by decide
    exact absurd h hnot
  | writeFireKey word => simp [KeyCall.stores] at h

theorem eq_writeFireKey_of_stores_fireMagic {c : KeyCall} (h : (.fireKey, fireMagic) ∈ c.stores) :
    c = .writeFireKey fireMagic := by
  have hzero : fireMagic ≠ 0#32 := by decide
  cases c with
  | arm timestampMs seqId => simp [KeyCall.stores, armStores, hzero] at h
  | disarm => simp [KeyCall.stores, disarmStores, hzero] at h
  | writeFireKey word =>
    have hword : fireMagic = word := by simpa [KeyCall.stores] using h
    rw [hword]

theorem timestamp_of_stores {c : KeyCall} {word : BitVec 32}
    (h : (.armedAtMs, word) ∈ c.stores) : (∃ seqId, c = .arm word seqId) ∨ word = 0#32 := by
  cases c with
  | arm timestampMs seqId =>
    have hword : word = timestampMs := by simpa [KeyCall.stores, armStores] using h
    exact Or.inl ⟨seqId, by rw [hword]⟩
  | disarm => exact Or.inr (by simpa [KeyCall.stores, disarmStores] using h)
  | writeFireKey word => simp [KeyCall.stores] at h

/-- **Firing under preemption.**  At any moment of any interleaving of the tasks' field stores, firing
is authorised exactly when the last store to the arm key is the arm word, the last one to the fire
key is the fire token, and the time lies in the window of the last timestamp stored, or of time zero
where there is none.  The arm word is then of an `arm` and the token of a token write of the task
that stored it; the timestamp may be of yet another call, and a timestamp other than zero is that of
an `arm` of its task. -/
theorem preempted_authorized_iff (n : ℕ) (tasks : Fin n → List KeyCall)
    (sched pre : List (Fin n × KeyWrite)) (hs : Interleaves (fun k => callStores (tasks k)) sched)
    (hpre : pre <+: sched) :
    (∀ t, (runSchedule keyFile.write {} pre).isFireAuthorized t = true ↔
      (∃ k, LastStore pre k .armKey armMagic) ∧ (∃ k, LastStore pre k .fireKey fireMagic) ∧
        ∃ since, ((∃ k, LastStore pre k .armedAtMs since) ∨
            since = 0#32 ∧ ∀ e ∈ pre, e.2.1 ≠ .armedAtMs) ∧
          since.toNat ≤ t.toNat ∧ t.toNat ≤ since.toNat + 50) ∧
    (∀ k, LastStore pre k .armKey armMagic → ∃ timestampMs seqId,
      KeyCall.arm timestampMs seqId ∈ tasks k) ∧
    (∀ k, LastStore pre k .fireKey fireMagic → KeyCall.writeFireKey fireMagic ∈ tasks k) ∧
    ∀ k since, LastStore pre k .armedAtMs since → since ≠ 0#32 →
      ∃ seqId, KeyCall.arm since seqId ∈ tasks k := by
  refine ⟨isFireAuthorized_schedule_iff pre, ?_, ?_, ?_⟩
  · intro k hk
    have ⟨c, hc, hstore⟩ := exists_call_of_lastStore hs hpre hk
    have ⟨timestampMs, seqId, harm⟩ := eq_arm_of_stores_armMagic hstore
    exact ⟨timestampMs, seqId, harm ▸ hc⟩
  · intro k hk
    have ⟨c, hc, hstore⟩ := exists_call_of_lastStore hs hpre hk
    exact eq_writeFireKey_of_stores_fireMagic hstore ▸ hc
  · intro k since hk hne
    have ⟨c, hc, hstore⟩ := exists_call_of_lastStore hs hpre hk
    rcases timestamp_of_stores hstore with ⟨seqId, harm⟩ | hzero
    · exact ⟨seqId, harm ▸ hc⟩
    · exact absurd hzero hne

-- An arming at 100 ms, and one at 1000 ms that is preempted by the token after two of its stores.
def tornRearming : List (Fin 2 × KeyWrite) :=
  tagged 0 (callStores [.arm 100#32 1#32]) ++
    [(0, ⟨.armKey, armMagic⟩), (0, ⟨.fireKey, 0#32⟩), (1, ⟨.fireKey, fireMagic⟩),
      (0, ⟨.armedAtMs, 1000#32⟩), (0, ⟨.sequenceId, 2#32⟩)]

-- The token meets the timestamp of the earlier arming.
theorem preempted_authorized_oldWindow :
    (runSchedule keyFile.write {} (tornRearming.take 7)).isFireAuthorized 120#32 = true := by
  have h := preempted_authorized_iff 2
    ![[.arm 100#32 1#32, .arm 1000#32 2#32], [.writeFireKey fireMagic]] tornRearming
    (tornRearming.take 7) (by decide) (List.take_prefix 7 _)
  apply (h.1 120#32).mpr
  refine ⟨⟨0, tornRearming.take 4, _, rfl, by decide⟩, ⟨1, tornRearming.take 6, [], rfl, by decide⟩,
    100#32, Or.inl ⟨0, tornRearming.take 2, _, rfl, by decide⟩, by decide, by decide⟩

/-! ## Racing calls -/

def keyFields : List KeyField := [.armKey, .fireKey, .armedAtMs, .sequenceId]

-- The word that a call stores to a field.
def ResetCall.word : ResetCall → KeyField → BitVec 32
  | .arm _ _, .armKey => armMagic
  | .arm _ _, .fireKey => 0#32
  | .arm timestampMs _, .armedAtMs => timestampMs
  | .arm _ seqId, .sequenceId => seqId
  | .disarm, _ => 0#32

theorem asWrites_stores (call : ResetCall) :
    asWrites call.stores = publish keyFields fun field => call.word field := by
  cases call <;> rfl

theorem word_fireKey (call : ResetCall) : call.word .fireKey = 0#32 := by cases call <;> rfl

/-- **Races of `arm` and `disarm`.**  Calls that race can leave exactly the keys that agree on each
field with some of them: an armed key with a zero timestamp, for one.  None of these keys authorises
firing. -/
theorem resetRace_outcomes (n : ℕ) (calls : Fin (n + 1) → ResetCall) (key key' : PyroTriggerKey) :
    ((∃ sched, Interleaves (fun k => asWrites (calls k).stores) sched ∧
        runSchedule keyFile.write key sched = key') ↔
      ∀ field, ∃ k, key'.load field = (calls k).word field) ∧
    ∀ sched, Interleaves (fun k => asWrites (calls k).stores) sched →
      ∀ t, (runSchedule keyFile.write key sched).isFireAuthorized t = false := by
  have hall : ∀ field, field ∈ keyFields := by
    intro field
    cases field <;> decide
  simp only [asWrites_stores]
  apply And.intro
  · exact race_outcomes keyFile (by decide) hall (fun k field => (calls k).word field) key key'
  · intro sched hs t
    have ⟨k, hk⟩ := exists_get_of_interleaves keyFile (by decide) hall hs key .fireKey
    change (runSchedule keyFile.write key sched).fireKey = (calls k).word .fireKey at hk
    apply isFireAuthorized_of_fireKey_ne
    rw [hk, word_fireKey]
    decide

-- An `arm` and a `disarm` that leave the key armed, with a zero timestamp.
example : ∃ sched, Interleaves (fun k : Fin 2 =>
      asWrites (![ResetCall.arm 1000#32 7#32, .disarm] k).stores) sched ∧
    runSchedule keyFile.write {} sched = { armKey := armMagic, sequenceId := 7#32 } :=
  ⟨[(1, ⟨.armKey, 0#32⟩), (0, ⟨.armKey, armMagic⟩), (0, ⟨.fireKey, 0#32⟩), (1, ⟨.fireKey, 0#32⟩),
    (0, ⟨.armedAtMs, 1000#32⟩), (1, ⟨.armedAtMs, 0#32⟩), (1, ⟨.sequenceId, 0#32⟩),
    (0, ⟨.sequenceId, 7#32⟩)], by decide, by decide⟩

end Bms.SafetyKeys
