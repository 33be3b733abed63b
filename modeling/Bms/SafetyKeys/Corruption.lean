import Bms.SafetyKeys.History

/-!
# Memory corruption of the guard key

Bits of the key may flip at any moment.  The magic words lie sixteen flips away from the words that
`arm` and `disarm` leave behind, so that flips alone have to be many to authorise firing.  The arming
timestamp is stored without redundancy.
-/

open Bms.Types Bms.Reasoning

namespace Bms.SafetyKeys

open PyroTriggerKey

/-! ## Runs of upsets -/

/-- A step of a run in which no fire token is supplied. -/
inductive Disturbance
  | arm (timestampMs seqId : BitVec 32)
  | disarm
  | flip (field : KeyField) (bit : Fin 32)
deriving DecidableEq, Repr

namespace Disturbance

def exec (key : PyroTriggerKey) : Disturbance → PyroTriggerKey
  | .arm timestampMs seqId => key.arm timestampMs seqId
  | .disarm => key.disarm
  | .flip field bit => key.flip field bit

def resets : Disturbance → Bool
  | .arm .. | .disarm => true
  | .flip .. => false

def hits (field : KeyField) : Disturbance → Bool
  | .flip f _ => f == field
  | _ => false

end Disturbance

def runDisturbed (steps : List Disturbance) (key : PyroTriggerKey := {}) : PyroTriggerKey :=
  steps.foldl Disturbance.exec key

theorem wordDist_load_flip_le (origin : BitVec 32) (key : PyroTriggerKey) (field : KeyField)
    {e : Disturbance} (he : e.resets = false) :
    wordDist origin ((e.exec key).load field) ≤
      wordDist origin (key.load field) + (if e.hits field then 1 else 0) := by
  cases e with
  | arm timestampMs seqId => cases he
  | disarm => cases he
  | flip f bit =>
    show wordDist origin ((key.store f (flipBit (key.load f) bit)).load field) ≤ _
    by_cases hf : f = field
    · subst hf
      simpa [Disturbance.hits] using wordDist_flipBit_le origin (key.load f) bit
    · rw [load_store_of_ne key _ (Ne.symm hf)]
      exact Nat.le_add_right _ _

-- Flips alone move a field no further than the number of them that hit it.
theorem wordDist_load_run_le (origin : BitVec 32) (steps : List Disturbance) (key : PyroTriggerKey)
    (field : KeyField) (hflips : ∀ e ∈ steps, e.resets = false) :
    wordDist origin ((runDisturbed steps key).load field) ≤
      wordDist origin (key.load field) + steps.countP (Disturbance.hits field) := by
  induction steps generalizing key with
  | nil => exact Nat.le_add_right _ _
  | cons e steps ih =>
    have hstep := wordDist_load_flip_le origin key field (hflips e List.mem_cons_self)
    have hrest := ih (e.exec key) fun x hx => hflips x (List.mem_cons_of_mem e hx)
    rw [List.countP_cons]
    show wordDist origin ((runDisturbed steps (e.exec key)).load field) ≤ _
    omega

theorem card_le_countP_hits {steps : List Disturbance} {key : PyroTriggerKey} {word : BitVec 32}
    (field : KeyField) (hflips : ∀ e ∈ steps, e.resets = false)
    (hzero : key.load field = 0#32) (hword : (runDisturbed steps key).load field = word) :
    (positions word).card ≤ steps.countP (Disturbance.hits field) := by
  have h := wordDist_load_run_le 0#32 steps key field hflips
  rwa [hzero, hword, wordDist_self, Nat.zero_add, wordDist_zero_left] at h

theorem countP_hits_add_le (steps : List Disturbance) {f g : KeyField} (hne : f ≠ g) :
    steps.countP (Disturbance.hits f) + steps.countP (Disturbance.hits g) ≤ steps.length := by
  induction steps with
  | nil => exact le_rfl
  | cons e steps ih =>
    rw [List.countP_cons, List.countP_cons, List.length_cons]
    cases e with
    | arm timestampMs seqId =>
      simp only [Disturbance.hits, Bool.false_eq_true, if_false]
      omega
    | disarm =>
      simp only [Disturbance.hits, Bool.false_eq_true, if_false]
      omega
    | flip field bit =>
      simp only [Disturbance.hits, beq_iff_eq]
      by_cases hf : field = f
      · rw [if_pos hf, if_neg (by rw [hf]; exact hne)]
        omega
      · rw [if_neg hf]
        split <;> omega

-- The hits that a run of flips needs to authorise firing, from a key with a cleared fire word.
theorem hits_of_authorized {steps : List Disturbance} {key : PyroTriggerKey} {t : BitVec 32}
    (hflips : ∀ e ∈ steps, e.resets = false) (hfire : key.fireKey = 0#32)
    (hauth : (runDisturbed steps key).isFireAuthorized t = true) :
    16 ≤ steps.countP (Disturbance.hits .fireKey) ∧
      (key.armKey = 0#32 → 16 ≤ steps.countP (Disturbance.hits .armKey) ∧ 32 ≤ steps.length) := by
  have hkeys := (PyroTriggerKey.isFireAuthorized_iff _ t).mp hauth
  have hf := card_le_countP_hits .fireKey hflips hfire hkeys.2.1
  rw [fireMagic_weight] at hf
  refine ⟨hf, fun harm => ?_⟩
  have ha := card_le_countP_hits .armKey hflips harm hkeys.1
  rw [armMagic_weight] at ha
  have hboth := countP_hits_add_le steps (show KeyField.fireKey ≠ .armKey by decide)
  exact ⟨ha, by omega⟩

/-- **Distance of firing from corruption.**  In a run of arm, disarm and bit flips that ends
authorised, at least sixteen flips since the last arm or disarm hit the fire key, and at least
sixteen more hit the arm key when that last step is a disarm or there is none. -/
theorem authorized_corruption_distance (steps : List Disturbance) (t : BitVec 32)
    (hauth : (runDisturbed steps).isFireAuthorized t = true) :
    ((∀ e ∈ steps, e.resets = false) →
      16 ≤ steps.countP (Disturbance.hits .fireKey) ∧
        16 ≤ steps.countP (Disturbance.hits .armKey) ∧ 32 ≤ steps.length) ∧
    ∀ pre e post, steps = pre ++ e :: post → e.resets = true → (∀ x ∈ post, x.resets = false) →
      16 ≤ post.countP (Disturbance.hits .fireKey) ∧
        (e = .disarm →
          16 ≤ post.countP (Disturbance.hits .armKey) ∧ 32 ≤ post.length) := by
  apply And.intro
  · intro hflips
    have h := hits_of_authorized hflips rfl hauth
    exact ⟨h.1, h.2 rfl⟩
  · intro pre e post hsteps he hpost
    rw [hsteps, runDisturbed, List.foldl_append, List.foldl_cons] at hauth
    cases e with
    | arm timestampMs seqId =>
      refine ⟨(hits_of_authorized hpost rfl hauth).1, fun hdisarm => ?_⟩
      cases hdisarm
    | disarm =>
      have h := hits_of_authorized hpost rfl hauth
      exact ⟨h.1, fun _ => h.2 rfl⟩
    | flip field bit => cases he

-- Sixteen flips that spell the fire token.
def forgedToken : List Disturbance :=
  [2, 3, 4, 5, 10, 11, 12, 13, 16, 17, 22, 23, 24, 25, 30, 31].map (.flip .fireKey)

theorem authorized_corruption_distance_forgedToken :
    16 ≤ forgedToken.countP (Disturbance.hits .fireKey) :=
  ((authorized_corruption_distance (.arm 100#32 1#32 :: forgedToken) 120#32 (by decide +kernel)).2
    [] (.arm 100#32 1#32) forgedToken rfl rfl (by decide)).1

/-! ## Few flipped bits -/

def bitsOf (bits : Finset (KeyField × Fin 32)) (field : KeyField) : Finset (Fin 32) :=
  {i | (field, i) ∈ bits}

theorem card_bitsOf_le (bits : Finset (KeyField × Fin 32)) (field : KeyField) :
    (bitsOf bits field).card ≤ bits.card := by
  apply Finset.card_le_card_of_injOn fun i => (field, i)
  · intro i hi
    simpa [bitsOf] using hi
  · intro i _ j _ hij
    exact (Prod.mk.inj hij).2

theorem bitsOf_eq_empty {bits : Finset (KeyField × Fin 32)} {field : KeyField} :
    bitsOf bits field = ∅ ↔ ∀ b ∈ bits, b.1 ≠ field := by
  simp only [bitsOf, Finset.filter_eq_empty_iff, Finset.mem_univ, forall_const]
  refine ⟨fun h b hb hf => ?_, fun h i hi => h _ hi rfl⟩
  subst hf
  exact h hb

/-- The words that calls leave in a key when no other token than the fire token is written. -/
def Intact (key : PyroTriggerKey) : Prop :=
  (key.armKey = 0#32 ∨ key.armKey = armMagic) ∧ (key.fireKey = 0#32 ∨ key.fireKey = fireMagic)

theorem intact_exec {key : PyroTriggerKey} (h : Intact key) {c : KeyCall}
    (hc : ∀ word, c = .writeFireKey word → word = fireMagic) : Intact (c.exec key) := by
  cases c with
  | arm timestampMs seqId => exact ⟨Or.inr rfl, Or.inl rfl⟩
  | disarm => exact ⟨Or.inl rfl, Or.inl rfl⟩
  | writeFireKey word => exact ⟨h.1, Or.inr (hc word rfl)⟩

theorem intact_runCalls (calls : List KeyCall)
    (hcalls : ∀ c ∈ calls, ∀ word, c = .writeFireKey word → word = fireMagic) :
    Intact (runCalls calls) := by
  apply List.foldlRecOn calls KeyCall.exec ⟨Or.inl rfl, Or.inl rfl⟩
  intro key hkey c hc
  exact intact_exec hkey (hcalls c hc)

-- Fewer flips than the weight of a magic word neither forge it from zero nor touch it unseen.
theorem flipped_eq_magic_iff {word magic : BitVec 32} {s : Finset (Fin 32)}
    (hword : word = 0#32 ∨ word = magic) (hfew : s.card < (positions magic).card) :
    word ^^^ bitImage s = magic ↔ word = magic ∧ s = ∅ := by
  rcases hword with h | h
  · -- From zero the mask itself would have to be the magic word.
    subst h
    rw [BitVec.zero_xor]
    refine ⟨fun hmask => ?_, fun hmagic => ?_⟩
    · rw [← hmask, positions_bitImage] at hfew
      exact absurd hfew (lt_irrefl _)
    · rw [← hmagic.1, positions_zero, Finset.card_empty] at hfew
      exact absurd hfew (Nat.not_lt_zero _)
  · subst h
    rw [xor_bitImage_eq_self]
    exact ⟨fun hs => ⟨rfl, hs⟩, fun hs => hs.2⟩

theorem flipSet_isFireAuthorized_iff {key : PyroTriggerKey} (hkey : Intact key)
    {bits : Finset (KeyField × Fin 32)} (hfew : bits.card < 16) (t : BitVec 32) :
    (key.flipSet bits).isFireAuthorized t = true ↔
      key.armKey = armMagic ∧ key.fireKey = fireMagic ∧
        (∀ b ∈ bits, b.1 ≠ .armKey) ∧ (∀ b ∈ bits, b.1 ≠ .fireKey) ∧
        (key.flipSet bits).armedAtMs.toNat ≤ t.toNat ∧
        t.toNat ≤ (key.flipSet bits).armedAtMs.toNat + 50 := by
  have ha := flipped_eq_magic_iff hkey.1 (s := bitsOf bits .armKey)
    (by rw [armMagic_weight]; exact lt_of_le_of_lt (card_bitsOf_le bits _) hfew)
  have hf := flipped_eq_magic_iff hkey.2 (s := bitsOf bits .fireKey)
    (by rw [fireMagic_weight]; exact lt_of_le_of_lt (card_bitsOf_le bits _) hfew)
  rw [bitsOf_eq_empty] at ha hf
  rw [PyroTriggerKey.isFireAuthorized_iff]
  show key.armKey ^^^ bitImage (bitsOf bits .armKey) = armMagic ∧
    key.fireKey ^^^ bitImage (bitsOf bits .fireKey) = fireMagic ∧ _ ↔ _
  rw [ha, hf]
  tauto

theorem flipSet_armedAtMs {key : PyroTriggerKey} {bits : Finset (KeyField × Fin 32)}
    (h : ∀ b ∈ bits, b.1 ≠ .armedAtMs) : (key.flipSet bits).armedAtMs = key.armedAtMs := by
  show key.armedAtMs ^^^ bitImage (bitsOf bits .armedAtMs) = key.armedAtMs
  rw [bitsOf_eq_empty.mpr h, xor_bitImage_eq_self]

/-- **What light corruption can do.**  In a state reached by arm, disarm and supplying the fire token,
let the query at `t` answer false and let fewer than sixteen distinct bits flip.  The answer stays
false when a magic word is missing or no bit of the arming timestamp flips.  It becomes true exactly
when both magic words are in place and untouched and the flipped timestamp opens a window at `t`. -/
theorem lightCorruption_refused (calls : List KeyCall)
    (hcalls : ∀ c ∈ calls, ∀ word, c = .writeFireKey word → word = fireMagic) (t : BitVec 32)
    (hrefused : (runCalls calls).isFireAuthorized t = false) (bits : Finset (KeyField × Fin 32))
    (hfew : bits.card < 16) :
    ((runCalls calls).armKey ≠ armMagic ∨ (runCalls calls).fireKey ≠ fireMagic ∨
        (∀ b ∈ bits, b.1 ≠ .armedAtMs) →
      ((runCalls calls).flipSet bits).isFireAuthorized t = false) ∧
    (((runCalls calls).flipSet bits).isFireAuthorized t = true ↔
      (runCalls calls).armKey = armMagic ∧ (runCalls calls).fireKey = fireMagic ∧
        (∀ b ∈ bits, b.1 ≠ .armKey) ∧ (∀ b ∈ bits, b.1 ≠ .fireKey) ∧
        ((runCalls calls).flipSet bits).armedAtMs.toNat ≤ t.toNat ∧
        t.toNat ≤ ((runCalls calls).flipSet bits).armedAtMs.toNat + 50) := by
  have hiff := flipSet_isFireAuthorized_iff (intact_runCalls calls hcalls) hfew t
  refine ⟨fun hclosed => ?_, hiff⟩
  rw [← Bool.not_eq_true, hiff]
  intro hopen
  rcases hopen with ⟨ha, hf, -, -, hwindow⟩
  rcases hclosed with h | h | h
  · exact h ha
  · exact h hf
  · rw [flipSet_armedAtMs h] at hwindow
    rw [(PyroTriggerKey.isFireAuthorized_iff _ t).mpr ⟨ha, hf, hwindow⟩] at hrefused
    cases hrefused

theorem lightCorruption_refused_unarmed :
    ((runCalls [.writeFireKey fireMagic]).flipSet {(.armKey, 0)}).isFireAuthorized 0#32 =
      false := by
  have h := lightCorruption_refused [.writeFireKey fireMagic] (by simp) 0#32 (by decide)
    {(.armKey, 0)} (by decide)
  exact h.1 (Or.inl (by decide))

-- An armed key with its token refuses at 64 ms; one flipped bit of the timestamp authorises it.
theorem oneFlip_opens_expired :
    ¬ ∀ (calls : List KeyCall),
      (∀ c ∈ calls, ∀ word, c = .writeFireKey word → word = fireMagic) →
      ∀ t, (runCalls calls).isFireAuthorized t = false →
      ∀ bits : Finset (KeyField × Fin 32), bits.card < 16 →
        ((runCalls calls).flipSet bits).isFireAuthorized t = false := by
  intro h
  have hfalse := h [.arm 0#32 0#32, .writeFireKey fireMagic] (by simp) 64#32 (by decide)
    {(.armedAtMs, 6)} (by decide)
  have htrue : ((runCalls [.arm 0#32 0#32, .writeFireKey fireMagic]).flipSet
      {(.armedAtMs, 6)}).isFireAuthorized 64#32 = true := by decide +kernel
  rw [htrue] at hfalse
  cases hfalse

end Bms.SafetyKeys
