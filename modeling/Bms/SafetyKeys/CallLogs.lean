import Bms.SafetyKeys.Interruption

/-!
# Logs of calls on the guard key

A log of calls acts on a key as its last arm or disarm and the last token written since do, where
after an arm or disarm a token of zero changes nothing and is left out.  Such logs of at most two
calls are normal forms: logs with different ones act differently on some key.
-/

open Bms.Types Bms.Reasoning

namespace Bms.SafetyKeys

open PyroTriggerKey

def ResetCall.call : ResetCall → KeyCall
  | .arm timestampMs seqId => .arm timestampMs seqId
  | .disarm => .disarm

/-- A log in short: the last reset, and the last fire key write since, unless it writes the zero that
the reset has left. -/
structure LogForm where
  reset : Option ResetCall
  token : Option (BitVec 32)
  token_ne_zero : reset.isSome = true → token ≠ some 0#32
deriving DecidableEq

namespace LogForm

def empty : LogForm := ⟨none, none, fun h => absurd h Bool.false_ne_true⟩

def calls (f : LogForm) : List KeyCall :=
  f.reset.toList.map ResetCall.call ++ f.token.toList.map .writeFireKey

def ofReset (r : ResetCall) : LogForm := ⟨some r, none, nofun⟩

def writeToken (f : LogForm) (word : BitVec 32) : LogForm :=
  if h : f.reset.isSome = true ∧ word = 0#32 then
    { f with token := none, token_ne_zero := nofun }
  else
    { f with token := some word, token_ne_zero := fun hs hw => h ⟨hs, Option.some.inj hw⟩ }

def push (f : LogForm) : KeyCall → LogForm
  | .arm timestampMs seqId => ofReset (.arm timestampMs seqId)
  | .disarm => ofReset .disarm
  | .writeFireKey word => f.writeToken word

end LogForm

def logForm (calls : List KeyCall) : LogForm := calls.foldl LogForm.push .empty

/-- The log cut down to its last reset and the last token written since, a zero after a reset left
out. -/
def compact (calls : List KeyCall) : List KeyCall := (logForm calls).calls

-- The write of zero after the arming is left out.
example : compact [.arm 5#32 1#32, .writeFireKey 0#32] = compact [.arm 5#32 1#32] := by decide

-- A retried arming whose token is corrected, before it is disarmed and armed anew.
example : compact [.arm 5#32 1#32, .writeFireKey 7#32, .disarm, .writeFireKey 9#32,
      .arm 80#32 2#32, .writeFireKey 1#32, .writeFireKey fireMagic] =
    [.arm 80#32 2#32, .writeFireKey fireMagic] := by decide

/-! ## The calls of a short log -/

-- What a key holds after a short log.
def LogForm.act (f : LogForm) (key : PyroTriggerKey) : PyroTriggerKey := f.calls.foldl KeyCall.exec key

-- A reset does not depend on the key.
theorem exec_reset (r : ResetCall) (key key' : PyroTriggerKey) :
    r.call.exec key = r.call.exec key' := by cases r <;> rfl

theorem fireKey_exec_reset (r : ResetCall) (key : PyroTriggerKey) :
    (r.call.exec key).fireKey = 0#32 := by cases r <;> rfl

theorem writeFireKey_of_fireKey_eq {key : PyroTriggerKey} {word : BitVec 32}
    (h : key.fireKey = word) : key.writeFireKey word = key := by
  show { key with fireKey := word } = key
  rw [← h]

theorem writeFireKey_writeFireKey (key : PyroTriggerKey) (word word' : BitVec 32) :
    (key.writeFireKey word).writeFireKey word' = key.writeFireKey word' := rfl

-- The key after the reset of a short log.
def LogForm.base (f : LogForm) (key : PyroTriggerKey) : PyroTriggerKey :=
  match f.reset with
  | none => key
  | some r => r.call.exec key

theorem act_eq (f : LogForm) (key : PyroTriggerKey) :
    f.act key = match f.token with
      | none => f.base key
      | some word => (f.base key).writeFireKey word := by
  rcases f with ⟨_ | r, _ | word, h⟩ <;> rfl

theorem act_writeToken (f : LogForm) (word : BitVec 32) (key : PyroTriggerKey) :
    (f.writeToken word).act key = (f.act key).writeFireKey word := by
  have hlast : (f.act key).writeFireKey word = (f.base key).writeFireKey word := by
    rw [act_eq]
    cases f.token with
    | none => rfl
    | some old => exact writeFireKey_writeFireKey _ old word
  rw [hlast]
  unfold LogForm.writeToken
  split
  · rename_i h
    -- The token is not recorded: the reset has cleared the fire key already.
    have ⟨r, hr⟩ := Option.isSome_iff_exists.mp h.1
    have hbase : f.base key = r.call.exec key := by
      unfold LogForm.base
      rw [hr]
    have hzero : (f.base key).fireKey = word := by
      rw [hbase, fireKey_exec_reset, h.2]
    rw [writeFireKey_of_fireKey_eq hzero, act_eq]
    rfl
  · rw [act_eq]
    rfl

theorem act_push (f : LogForm) (c : KeyCall) (key : PyroTriggerKey) :
    (f.push c).act key = c.exec (f.act key) := by
  cases c with
  | arm timestampMs seqId => exact exec_reset (.arm timestampMs seqId) key (f.act key)
  | disarm => exact exec_reset .disarm key (f.act key)
  | writeFireKey word => exact act_writeToken f word key

theorem act_logForm (calls : List KeyCall) (key : PyroTriggerKey) :
    (logForm calls).act key = calls.foldl KeyCall.exec key := by
  unfold logForm
  induction calls using List.reverseRecOn with
  | nil => rfl
  | append_singleton calls c ih =>
    rw [List.foldl_concat, List.foldl_concat, act_push, ih]

/-! ## The calls are taken from the log -/

theorem sublist_writeToken {f : LogForm} {calls : List KeyCall} (h : f.calls.Sublist calls)
    (word : BitVec 32) : (f.writeToken word).calls.Sublist (calls ++ [.writeFireKey word]) := by
  have hreset : (f.reset.toList.map ResetCall.call).Sublist calls :=
    (List.sublist_append_left _ _).trans h
  unfold LogForm.writeToken
  split
  · show (f.reset.toList.map ResetCall.call ++ []).Sublist _
    rw [List.append_nil]
    exact hreset.trans (List.sublist_append_left _ _)
  · exact hreset.append (List.Sublist.refl _)

theorem sublist_push {f : LogForm} {calls : List KeyCall} (h : f.calls.Sublist calls) (c : KeyCall) :
    (f.push c).calls.Sublist (calls ++ [c]) := by
  cases c with
  | arm timestampMs seqId => exact List.sublist_append_right _ _
  | disarm => exact List.sublist_append_right _ _
  | writeFireKey word => exact sublist_writeToken h word

theorem compact_sublist (calls : List KeyCall) : (compact calls).Sublist calls := by
  unfold compact logForm
  induction calls using List.reverseRecOn with
  | nil => exact List.Sublist.refl _
  | append_singleton calls c ih =>
    rw [List.foldl_concat]
    exact sublist_push ih c

theorem length_calls_le (f : LogForm) : f.calls.length ≤ 2 := by
  unfold LogForm.calls
  rw [List.length_append, List.length_map, List.length_map]
  have hreset := Option.length_toList_le (o := f.reset)
  have htoken := Option.length_toList_le (o := f.token)
  omega

/-! ## Telling short logs apart -/

theorem load_act (f : LogForm) (key : PyroTriggerKey) {field : KeyField} (h : field ≠ .fireKey) :
    (f.act key).load field = (f.base key).load field := by
  rw [act_eq]
  cases f.token with
  | none => rfl
  | some word => exact load_store_of_ne _ word h

theorem fireKey_act (f : LogForm) (key : PyroTriggerKey) :
    (f.act key).fireKey = f.token.getD (if f.reset.isSome then 0#32 else key.fireKey) := by
  rw [act_eq]
  unfold LogForm.base
  cases f.token with
  | some word => rfl
  | none =>
    cases f.reset with
    | none => rfl
    | some r => exact fireKey_exec_reset r key

-- A key that no reset leaves behind.
def probe (word : BitVec 32) : PyroTriggerKey := { armKey := 1#32, fireKey := word }

theorem armKey_exec_reset_ne (r : ResetCall) (key : PyroTriggerKey) :
    (r.call.exec key).armKey ≠ 1#32 := by
  cases r with
  | arm timestampMs seqId => exact show armMagic ≠ 1#32 by decide
  | disarm => exact show 0#32 ≠ 1#32 by decide

theorem reset_eq_of_exec_eq {r r' : ResetCall} {key : PyroTriggerKey}
    (h : ∀ field, field ≠ .fireKey → (r.call.exec key).load field = (r'.call.exec key).load field) :
    r = r' := by
  have harm := h .armKey (by decide)
  have hsince := h .armedAtMs (by decide)
  have hseq := h .sequenceId (by decide)
  have hmagic : armMagic ≠ 0#32 := by decide
  cases r with
  | arm timestampMs seqId =>
    cases r' with
    | arm timestampMs' seqId' => exact congrArg₂ ResetCall.arm hsince hseq
    | disarm => exact absurd harm hmagic
  | disarm =>
    cases r' with
    | arm timestampMs' seqId' => exact absurd harm.symm hmagic
    | disarm => rfl

theorem reset_eq_of_act_eq {f g : LogForm} (h : ∀ key, f.act key = g.act key) :
    f.reset = g.reset := by
  have hbase (field : KeyField) (hfield : field ≠ .fireKey) :
      (f.base (probe 0#32)).load field = (g.base (probe 0#32)).load field := by
    rw [← load_act f _ hfield, ← load_act g _ hfield, h]
  have harm := hbase .armKey (by decide)
  unfold LogForm.base at hbase harm
  cases hf : f.reset with
  | none =>
    cases hg : g.reset with
    | none => rfl
    | some r' =>
      rw [hf, hg] at harm
      exact absurd harm.symm (armKey_exec_reset_ne r' _)
  | some r =>
    cases hg : g.reset with
    | none =>
      rw [hf, hg] at harm
      exact absurd harm (armKey_exec_reset_ne r _)
    | some r' =>
      rw [hf, hg] at hbase
      exact congrArg some (reset_eq_of_exec_eq hbase)

theorem token_eq_of_getD_zero {a b : Option (BitVec 32)} (ha : a ≠ some 0#32) (hb : b ≠ some 0#32)
    (h : a.getD 0#32 = b.getD 0#32) : a = b := by
  cases a with
  | none =>
    cases b with
    | none => rfl
    | some word => exact absurd (congrArg some h.symm) hb
  | some word =>
    cases b with
    | none => exact absurd (congrArg some h) ha
    | some word' => exact congrArg some h

-- Two different defaults show whether there is a value.
theorem token_eq_of_getD {a b : Option (BitVec 32)} (h : ∀ word, a.getD word = b.getD word) :
    a = b := by
  cases a with
  | none =>
    cases b with
    | none => rfl
    | some word =>
      have hzero : (0#32 : BitVec 32) = word := h 0#32
      have hone : (1#32 : BitVec 32) = word := h 1#32
      exact absurd (hzero.trans hone.symm) (by decide)
  | some word =>
    cases b with
    | none =>
      have hzero : word = (0#32 : BitVec 32) := h 0#32
      have hone : word = (1#32 : BitVec 32) := h 1#32
      exact absurd (hzero.symm.trans hone) (by decide)
    | some word' => exact congrArg some (h 0#32)

theorem eq_of_act_eq {f g : LogForm} (h : ∀ key, f.act key = g.act key) : f = g := by
  have hreset := reset_eq_of_act_eq h
  have hfire (word : BitVec 32) : f.token.getD (if f.reset.isSome then 0#32 else word) =
      g.token.getD (if g.reset.isSome then 0#32 else word) := by
    have hkey := congrArg PyroTriggerKey.fireKey (h (probe word))
    rwa [fireKey_act, fireKey_act] at hkey
  have htoken : f.token = g.token := by
    rw [← hreset] at hfire
    cases hr : f.reset.isSome with
    | true =>
      have hg : g.reset.isSome = true := by rw [← hreset, hr]
      have hzero := hfire 0#32
      rw [hr, if_pos rfl] at hzero
      exact token_eq_of_getD_zero (f.token_ne_zero hr) (g.token_ne_zero hg) hzero
    | false =>
      rw [hr] at hfire
      exact token_eq_of_getD hfire
  cases f
  cases g
  cases hreset
  cases htoken
  rfl

/-- **Normal forms of call logs.**  Every log of calls acts on every key as its normal form does: its
last reset and the last fire key write since, without a write of zero after a reset.  These are at
most two calls of the log, and logs act alike on every key exactly when their normal forms are the
same. -/
theorem callLogs_normalForm (calls calls' : List KeyCall) :
    (compact calls).length ≤ 2 ∧ (compact calls).Sublist calls ∧
    (∀ key, (compact calls).foldl KeyCall.exec key = calls.foldl KeyCall.exec key) ∧
    ((∀ key, calls.foldl KeyCall.exec key = calls'.foldl KeyCall.exec key) ↔
      compact calls = compact calls') := by
  refine ⟨length_calls_le _, compact_sublist calls, act_logForm calls, ?_⟩
  apply Iff.intro
  · intro h
    have hforms : logForm calls = logForm calls' := by
      apply eq_of_act_eq
      intro key
      rw [act_logForm, act_logForm, h]
    rw [compact, compact, hforms]
  · intro h key
    rw [← act_logForm, ← act_logForm]
    exact congrArg (fun log => log.foldl KeyCall.exec key) h

end Bms.SafetyKeys
