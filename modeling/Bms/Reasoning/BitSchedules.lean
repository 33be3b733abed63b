import Bms.Reasoning.BitActions
import Bms.Reasoning.Interleaving

/-!
# Schedule independence, bit by bit

Several tasks act on one word of flags.  Whether the schedule matters is decided on each bit by the
actions of the tasks that do something there: it does not matter exactly when one task alone acts on
the bit, or all actions on it are toggles, or every task that acts on it ends with the same raising
or with the same lowering.
-/

namespace Bms.Reasoning

variable {ε ι M κ : Type*}

/-! ## Active actions -/

namespace BitAction

theorem seq_keep (a : BitAction) : a.seq .keep = a := by cases a <;> rfl

theorem net_concat (actions : List BitAction) (a : BitAction) :
    net (actions ++ [a]) = (net actions).seq a := by
  unfold net
  rw [List.foldl_append]
  rfl

theorem seq_of_decides (a : BitAction) {b : BitAction} (h : b.Decides) : a.seq b = b := by
  cases a <;> cases b <;> first | rfl | exact absurd h (by decide)

theorem decides_seq {a : BitAction} (h : a.Decides) (b : BitAction) : (a.seq b).Decides := by
  cases a <;> cases b <;> first | decide | exact absurd h (by decide)

-- An active action that commutes somewhere with a deciding one is that action.
theorem eq_of_comm_decides {a b : BitAction} (ha : a.Decides) (hb : b ≠ .keep) {x : Bool}
    (h : b.act (a.act x) = a.act (b.act x)) : b = a := by
  cases a <;> cases b <;> simp_all [act, Decides]

end BitAction

/-- The tasks that act on a bit, given by the actions of each, leave it the same in every order. -/
def Settled (words : κ → List BitAction) : Prop :=
  (∃ k, ∀ j, j ≠ k → words j = []) ∨ (∀ k, ∀ a ∈ words k, a = .toggle) ∨
    ∃ a ∈ [BitAction.raise, .lower], ∀ k, words k ≠ [] → (words k).getLast? = some a

instance [Fintype κ] [DecidableEq κ] (words : κ → List BitAction) : Decidable (Settled words) :=
  inferInstanceAs (Decidable (_ ∨ _ ∨ _))

namespace BitSystem

variable (sys : BitSystem ε ι M)

-- The actions of a script on a bit, without those that keep it.
def activeWord (steps : List ε) (i : ι) : List BitAction :=
  (steps.map fun e => sys.action e i).filter (· ≠ .keep)

theorem mem_activeWord {steps : List ε} {i : ι} {a : BitAction} :
    a ∈ sys.activeWord steps i ↔ (∃ e ∈ steps, sys.action e i = a) ∧ a ≠ .keep := by
  simp [activeWord]

theorem activeWord_append (steps steps' : List ε) (i : ι) :
    sys.activeWord (steps ++ steps') i = sys.activeWord steps i ++ sys.activeWord steps' i := by
  unfold activeWord
  rw [List.map_append, List.filter_append]

theorem activeWord_singleton_of_keep {e : ε} {i : ι} (h : sys.action e i = .keep) :
    sys.activeWord [e] i = [] := by
  simp [activeWord, h]

theorem activeWord_singleton {e : ε} {i : ι} (h : sys.action e i ≠ .keep) :
    sys.activeWord [e] i = [sys.action e i] := by
  simp [activeWord, h]

theorem netAction_concat (steps : List ε) (e : ε) (i : ι) :
    sys.netAction (steps ++ [e]) i = (sys.netAction steps i).seq (sys.action e i) := by
  unfold netAction
  rw [List.map_append]
  exact BitAction.net_concat _ _

theorem netAction_append (steps steps' : List ε) (i : ι) :
    sys.netAction (steps ++ steps') i = (sys.netAction steps i).seq (sys.netAction steps' i) := by
  induction steps' using List.reverseRecOn with
  | nil => rw [List.append_nil]; exact (BitAction.seq_keep _).symm
  | append_singleton steps' e ih =>
    rw [← List.append_assoc, netAction_concat, netAction_concat, ih]
    apply BitAction.act_ext
    · simp only [BitAction.act_seq]
    · simp only [BitAction.act_seq]

theorem netAction_of_activeWord_nil {steps : List ε} {i : ι} (h : sys.activeWord steps i = []) :
    sys.netAction steps i = .keep := by
  induction steps using List.reverseRecOn with
  | nil => rfl
  | append_singleton steps e ih =>
    rw [activeWord_append, List.append_eq_nil_iff] at h
    have he : sys.action e i = .keep := by
      by_contra hne
      rw [sys.activeWord_singleton hne] at h
      exact List.cons_ne_nil _ _ h.2
    rw [netAction_concat, he, ih h.1]
    rfl

-- A script that ends with a deciding action on a bit, but for actions that keep it, decides it.
theorem netAction_of_getLast {steps : List ε} {i : ι} {a : BitAction} (ha : a.Decides)
    (h : (sys.activeWord steps i).getLast? = some a) : sys.netAction steps i = a := by
  induction steps using List.reverseRecOn with
  | nil => cases h
  | append_singleton steps e ih =>
    rw [activeWord_append] at h
    rw [netAction_concat]
    by_cases he : sys.action e i = .keep
    · rw [sys.activeWord_singleton_of_keep he, List.append_nil] at h
      rw [he, BitAction.seq_keep, ih h]
    · rw [sys.activeWord_singleton he, List.getLast?_concat, Option.some.injEq] at h
      rw [h, BitAction.seq_of_decides _ ha]

/-! ## Rests of a script -/

-- The rest of a script from its last active step on.
theorem exists_rest_of_getLast {steps : List ε} {i : ι} {a : BitAction}
    (h : (sys.activeWord steps i).getLast? = some a) :
    ∃ l r, steps = l ++ r ∧ sys.netAction r i = a := by
  induction steps using List.reverseRecOn with
  | nil => cases h
  | append_singleton steps e ih =>
    rw [activeWord_append] at h
    by_cases he : sys.action e i = .keep
    · rw [sys.activeWord_singleton_of_keep he, List.append_nil] at h
      have ⟨l, r, hsteps, hr⟩ := ih h
      refine ⟨l, r ++ [e], by rw [hsteps, List.append_assoc], ?_⟩
      rw [netAction_concat, he, BitAction.seq_keep, hr]
    · rw [sys.activeWord_singleton he, List.getLast?_concat, Option.some.injEq] at h
      refine ⟨steps, [e], rfl, ?_⟩
      rw [← h]
      exact sys.netAction_concat [] e i |>.trans (by cases sys.action e i <;> rfl)

-- The rest of a script from one of its deciding steps on.
theorem exists_rest_of_decides {steps : List ε} {i : ι} {a : BitAction}
    (ha : a ∈ sys.activeWord steps i) (hdecides : a.Decides) :
    ∃ l r, steps = l ++ r ∧ (sys.netAction r i).Decides := by
  have ⟨⟨e, he, hea⟩, _⟩ := sys.mem_activeWord.mp ha
  have ⟨l, r, hsteps⟩ := List.append_of_mem he
  refine ⟨l, e :: r, hsteps, ?_⟩
  have hcons : sys.netAction (e :: r) i = (sys.netAction [e] i).seq (sys.netAction r i) :=
    sys.netAction_append [e] r i
  have hfirst : sys.netAction [e] i = a := by
    rw [← hea]
    exact sys.netAction_concat [] e i |>.trans (by cases sys.action e i <;> rfl)
  rw [hcons, hfirst]
  exact BitAction.decides_seq hdecides _

/-! ## One bit of a schedule -/

def actOn (i : ι) (x : Bool) (e : ε) : Bool := (sys.action e i).act x

theorem bit_runSchedule (s : List (κ × ε)) (m : M) (i : ι) :
    sys.bit (runSchedule sys.exec m s) i = runSchedule (sys.actOn i) (sys.bit m i) s := by
  induction s generalizing m with
  | nil => rfl
  | cons e s ih =>
    rw [runSchedule_cons, runSchedule_cons, ih, sys.bit_exec]
    rfl

theorem runSchedule_eq_run (s : List (κ × ε)) (m : M) :
    runSchedule sys.exec m s = sys.run (s.map Prod.snd) m := by
  unfold runSchedule run
  rw [List.foldl_map]

variable [DecidableEq κ] {tasks : κ → List ε}

theorem activeWord_ownSteps_concat_self (s : List (κ × ε)) (e : κ × ε) (i : ι) :
    sys.activeWord (ownSteps (s ++ [e]) e.1) i =
      sys.activeWord (ownSteps s e.1) i ++ sys.activeWord [e.2] i := by
  have hown : ownSteps [e] e.1 = [e.2] := ownSteps_cons_self e.1 e.2 []
  rw [ownSteps_append, hown, activeWord_append]

-- The last active step of a schedule is the last active step of its task.
theorem exists_getLast_ownSteps {s : List (κ × ε)} {i : ι} {a : BitAction}
    (h : (sys.activeWord (s.map Prod.snd) i).getLast? = some a) :
    ∃ k, (sys.activeWord (ownSteps s k) i).getLast? = some a := by
  induction s using List.reverseRecOn with
  | nil => cases h
  | append_singleton s e ih =>
    rw [List.map_append, activeWord_append] at h
    change (_ ++ sys.activeWord [e.2] i).getLast? = some a at h
    by_cases he : sys.action e.2 i = .keep
    · rw [sys.activeWord_singleton_of_keep he, List.append_nil] at h
      have ⟨k, hk⟩ := ih h
      refine ⟨k, ?_⟩
      by_cases hek : e.1 = k
      · subst hek
        rwa [activeWord_ownSteps_concat_self, sys.activeWord_singleton_of_keep he, List.append_nil]
      · rw [ownSteps_append, ownSteps_cons_of_ne hek]
        simpa [ownSteps] using hk
    · rw [sys.activeWord_singleton he, List.getLast?_concat] at h
      refine ⟨e.1, ?_⟩
      rw [activeWord_ownSteps_concat_self, sys.activeWord_singleton he, List.getLast?_concat, h]

theorem activeWord_eq_nil_of_tasks {s : List (κ × ε)} (hs : Interleaves tasks s) {i : ι}
    (h : ∀ k, sys.activeWord (tasks k) i = []) : sys.activeWord (s.map Prod.snd) i = [] := by
  rw [← List.getLast?_eq_none_iff]
  apply Option.eq_none_iff_forall_ne_some.mpr
  intro a ha
  have ⟨k, hk⟩ := sys.exists_getLast_ownSteps ha
  rw [hs k, h k] at hk
  cases hk

theorem activeWord_ne_nil_of_task {s : List (κ × ε)} (hs : Interleaves tasks s) {i : ι} {k : κ}
    (h : sys.activeWord (tasks k) i ≠ []) : sys.activeWord (s.map Prod.snd) i ≠ [] := by
  have ⟨a, ha⟩ := List.exists_mem_of_ne_nil _ h
  have ⟨⟨e, he, hea⟩, hne⟩ := sys.mem_activeWord.mp ha
  rw [← hs k] at he
  apply List.ne_nil_of_mem (a := a)
  apply sys.mem_activeWord.mpr
  exact ⟨⟨e, List.mem_map_of_mem (mem_of_mem_ownSteps he), hea⟩, hne⟩

theorem action_eq_keep {s : List ε} {i : ι} (h : sys.activeWord s i = []) {e : ε} (he : e ∈ s) :
    sys.action e i = .keep := by
  by_contra hne
  have hmem : sys.action e i ∈ sys.activeWord s i := sys.mem_activeWord.mpr ⟨⟨e, he, rfl⟩, hne⟩
  rw [h] at hmem
  exact List.not_mem_nil hmem

/-! ## Settled bits -/

theorem bit_runSchedule_of_single {s : List (κ × ε)} (hs : Interleaves tasks s) {i : ι} {k : κ}
    (h : ∀ j, j ≠ k → sys.activeWord (tasks j) i = []) (m : M) :
    sys.bit (runSchedule sys.exec m s) i = sys.bit (sys.run (tasks k) m) i := by
  apply hs.view_runSchedule k (fun m => sys.bit m i) (sys.actOn i)
  · intro m e
    exact sys.bit_exec m e i
  · intro j hj e he x
    unfold actOn
    rw [sys.action_eq_keep (h j hj) he]
    rfl

theorem bit_runSchedule_of_toggles {s s' : List (κ × ε)} (hs : Interleaves tasks s)
    (hs' : Interleaves tasks s') {i : ι}
    (h : ∀ k, ∀ a ∈ sys.activeWord (tasks k) i, a = .toggle) (m : M) :
    sys.bit (runSchedule sys.exec m s) i = sys.bit (runSchedule sys.exec m s') i := by
  have hkind : ∀ k, ∀ e ∈ tasks k, sys.action e i = .keep ∨ sys.action e i = .toggle := by
    intro k e he
    by_cases hne : sys.action e i = .keep
    · exact Or.inl hne
    · exact Or.inr (h k _ (sys.mem_activeWord.mpr ⟨⟨e, he, rfl⟩, hne⟩))
  have hcomm : ∀ k j, k ≠ j → ∀ e ∈ tasks k, ∀ e' ∈ tasks j, ∀ x,
      sys.actOn i (sys.actOn i x e) e' = sys.actOn i (sys.actOn i x e') e := by
    intro k j _ e he e' he' x
    unfold actOn
    rcases hkind k e he with h | h <;> rcases hkind j e' he' with h' | h' <;> rw [h, h'] <;> rfl
  rw [bit_runSchedule, bit_runSchedule]
  exact hs.runSchedule_eq hs' hcomm (sys.bit m i)

theorem netAction_schedule_of_decided {s : List (κ × ε)} (hs : Interleaves tasks s) {i : ι}
    {a : BitAction} (ha : a.Decides)
    (h : ∀ k, sys.activeWord (tasks k) i ≠ [] →
      (sys.activeWord (tasks k) i).getLast? = some a) {k : κ}
    (hk : sys.activeWord (tasks k) i ≠ []) : sys.netAction (s.map Prod.snd) i = a := by
  apply sys.netAction_of_getLast ha
  have hne := sys.activeWord_ne_nil_of_task hs hk
  have ⟨b, hb⟩ := Option.ne_none_iff_exists'.mp (mt List.getLast?_eq_none_iff.mp hne)
  have ⟨j, hj⟩ := sys.exists_getLast_ownSteps hb
  rw [hs j] at hj
  have hactive : sys.activeWord (tasks j) i ≠ [] := by
    intro hnil
    rw [hnil] at hj
    cases hj
  rw [hb, ← hj, h j hactive]

theorem bit_runSchedule_of_decided {s s' : List (κ × ε)} (hs : Interleaves tasks s)
    (hs' : Interleaves tasks s') {i : ι} {a : BitAction} (ha : a.Decides)
    (h : ∀ k, sys.activeWord (tasks k) i ≠ [] →
      (sys.activeWord (tasks k) i).getLast? = some a) (m : M) :
    sys.bit (runSchedule sys.exec m s) i = sys.bit (runSchedule sys.exec m s') i := by
  rw [runSchedule_eq_run, runSchedule_eq_run, bit_run, bit_run]
  by_cases hall : ∀ k, sys.activeWord (tasks k) i = []
  · rw [sys.netAction_of_activeWord_nil (sys.activeWord_eq_nil_of_tasks hs hall),
      sys.netAction_of_activeWord_nil (sys.activeWord_eq_nil_of_tasks hs' hall)]
  · have ⟨k, hk⟩ := not_forall.mp hall
    rw [sys.netAction_schedule_of_decided hs ha h hk, sys.netAction_schedule_of_decided hs' ha h hk]

theorem runSchedule_eq_of_settled {s s' : List (κ × ε)} (hs : Interleaves tasks s)
    (hs' : Interleaves tasks s') (h : ∀ i, Settled fun k => sys.activeWord (tasks k) i) (m : M) :
    runSchedule sys.exec m s = runSchedule sys.exec m s' := by
  apply sys.ext
  intro i
  rcases h i with ⟨k, hsingle⟩ | htoggles | ⟨a, ha, hlast⟩
  · rw [sys.bit_runSchedule_of_single hs hsingle, sys.bit_runSchedule_of_single hs' hsingle]
  · exact sys.bit_runSchedule_of_toggles hs hs' htoggles m
  · have hdecides : a.Decides := by simpa [BitAction.Decides] using ha
    exact sys.bit_runSchedule_of_decided hs hs' hdecides hlast m

/-! ## Unsettled bits -/

section Fintype

variable [Fintype κ]

-- Where the schedule does not matter, the rests of two tasks commute at some value of a bit.
theorem exists_rests_comm
    (h : ∀ s s', Interleaves tasks s → Interleaves tasks s' → ∀ m,
      runSchedule sys.exec m s = runSchedule sys.exec m s') {k j : κ} (hne : k ≠ j)
    {l l' r r' : List ε} (hk : tasks k = l ++ l') (hj : tasks j = r ++ r') (i : ι) :
    ∃ x, (sys.netAction r' i).act ((sys.netAction l' i).act x) =
      (sys.netAction l' i).act ((sys.netAction r' i).act x) := by
  have ⟨pre, hfirst, hsecond⟩ := exists_interleaves_rests tasks hne hk hj
  have hbit := congrArg (fun m => sys.bit m i) (h _ _ hfirst hsecond sys.low)
  have hrest : ∀ (k : κ) (steps : List ε), (tagged k steps).map Prod.snd = steps := by
    intro k steps
    simp [tagged, Function.comp_def]
  simp only [runSchedule_eq_run, List.map_append, hrest, bit_run, netAction_append,
    BitAction.act_seq] at hbit
  exact ⟨_, hbit⟩

theorem settled_of_schedule_independent
    (h : ∀ s s', Interleaves tasks s → Interleaves tasks s' → ∀ m,
      runSchedule sys.exec m s = runSchedule sys.exec m s') (i : ι) :
    Settled fun k => sys.activeWord (tasks k) i := by
  apply or_iff_not_imp_left.mpr
  intro hmany
  apply or_iff_not_imp_left.mpr
  intro hmixed
  simp only [not_exists, not_forall] at hmany hmixed
  -- Some task decides the bit; its rest from there on decides it too.
  have ⟨k, a, ha, hnot⟩ := hmixed
  have hkeep : a ≠ .keep := (sys.mem_activeWord.mp ha).2
  have hdecides : a.Decides := by
    cases a <;> first | decide | exact absurd rfl hkeep | exact absurd rfl hnot
  have ⟨l, l', hk, hc⟩ := sys.exists_rest_of_decides ha hdecides
  -- The last action of any other task agrees with that rest, and then so does its own.
  have hlast : ∀ j, ∀ b, (sys.activeWord (tasks j) i).getLast? = some b → b ≠ .keep :=
    fun j b hb => (sys.mem_activeWord.mp (List.mem_of_getLast? hb)).2
  have hother : ∀ j, j ≠ k → ∀ b, (sys.activeWord (tasks j) i).getLast? = some b →
      b = sys.netAction l' i := by
    intro j hj b hb
    have ⟨r, r', htask, hr⟩ := sys.exists_rest_of_getLast hb
    have ⟨x, hx⟩ := sys.exists_rests_comm h (Ne.symm hj) hk htask i
    rw [hr] at hx
    exact BitAction.eq_of_comm_decides hc (hlast j b hb) hx
  have hself : ∀ b, (sys.activeWord (tasks k) i).getLast? = some b → b = sys.netAction l' i := by
    intro b hb
    have ⟨j, hj, hactive⟩ := hmany k
    have ⟨c, hcj⟩ := Option.ne_none_iff_exists'.mp (mt List.getLast?_eq_none_iff.mp hactive)
    have hceq := hother j hj c hcj
    have ⟨r, r', htask, hr⟩ := sys.exists_rest_of_getLast hcj
    have ⟨q, q', hktask, hq⟩ := sys.exists_rest_of_getLast hb
    have ⟨x, hx⟩ := sys.exists_rests_comm h hj htask hktask i
    rw [hr, hq, hceq] at hx
    exact BitAction.eq_of_comm_decides hc (hlast k b hb) hx
  refine ⟨sys.netAction l' i, by simpa [BitAction.Decides] using hc, ?_⟩
  intro j hactive
  have ⟨b, hb⟩ := Option.ne_none_iff_exists'.mp (mt List.getLast?_eq_none_iff.mp hactive)
  by_cases hjk : j = k
  · subst hjk
    rw [hb, hself b hb]
  · rw [hb, hother j hjk b hb]

/-- **When the schedule does not matter.** -/
theorem schedule_independent_iff (tasks : κ → List ε) :
    (∀ s s', Interleaves tasks s → Interleaves tasks s' → ∀ m,
      runSchedule sys.exec m s = runSchedule sys.exec m s') ↔
      ∀ i, Settled fun k => sys.activeWord (tasks k) i := by
  apply Iff.intro
  · intro h i
    exact sys.settled_of_schedule_independent h i
  · intro h s s' hs hs' m
    exact sys.runSchedule_eq_of_settled hs hs' h m

end Fintype

end BitSystem

end Bms.Reasoning
