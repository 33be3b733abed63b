import Bms.Reasoning.Interleaving

/-!
# Records written field by field

A record with named fields, each read and written on its own.  After any writes a field holds the
last value written to it, and after interleaved writes the last value of one of the tasks.  When tasks
write whole records field by field in one order, what they can leave is any mixture of their records.
-/

namespace Bms.Reasoning

variable {σ ι κ : Type*} {β : ι → Type*}

structure RegisterFile (σ ι : Type*) (β : ι → Type*) where
  get : σ → (i : ι) → β i
  set : σ → (i : ι) → β i → σ
  get_set_self : ∀ s i v, get (set s i v) i = v
  get_set_of_ne : ∀ s i j v, j ≠ i → get (set s i v) j = get s j
  ext : ∀ s t, (∀ i, get s i = get t i) → s = t

variable [DecidableEq ι]

-- The value that a write gives to the field `i`.
def writtenTo (i : ι) (w : Sigma β) : Option (β i) := if h : w.1 = i then some (h ▸ w.2) else none

def lastWrite (i : ι) (writes : List (Sigma β)) : Option (β i) :=
  (writes.filterMap (writtenTo i)).getLast?

theorem writtenTo_self (i : ι) (v : β i) : writtenTo i ⟨i, v⟩ = some v := by
  unfold writtenTo
  rw [dif_pos rfl]

theorem writtenTo_of_ne {i : ι} {w : Sigma β} (h : w.1 ≠ i) : writtenTo i w = none := dif_neg h

theorem lastWrite_append (i : ι) (writes writes' : List (Sigma β)) :
    lastWrite i (writes ++ writes') = (lastWrite i writes').or (lastWrite i writes) := by
  unfold lastWrite
  rw [List.filterMap_append, List.getLast?_append]

theorem lastWrite_concat_self (i : ι) (writes : List (Sigma β)) (v : β i) :
    lastWrite i (writes ++ [⟨i, v⟩]) = some v := by
  unfold lastWrite
  rw [List.filterMap_append, List.filterMap_cons_some (writtenTo_self i v), List.filterMap_nil,
    List.getLast?_concat]

theorem lastWrite_eq_none {i : ι} {writes : List (Sigma β)} :
    lastWrite i writes = none ↔ ∀ w ∈ writes, w.1 ≠ i := by
  unfold lastWrite
  rw [List.getLast?_eq_none_iff, List.filterMap_eq_nil_iff]
  apply forall₂_congr
  intro w _
  apply Iff.intro
  · intro h hw
    subst hw
    rw [writtenTo_self] at h
    cases h
  · exact writtenTo_of_ne

-- The last write to a field, with what came before and after it.
theorem lastWrite_eq_some_iff {i : ι} {writes : List (Sigma β)} {v : β i} :
    lastWrite i writes = some v ↔
      ∃ pre post, writes = pre ++ ⟨i, v⟩ :: post ∧ ∀ w ∈ post, w.1 ≠ i := by
  apply Iff.intro
  · intro h
    induction writes using List.reverseRecOn with
    | nil => cases h
    | append_singleton writes w ih =>
      by_cases hw : w.1 = i
      · rcases w with ⟨j, u⟩
        change j = i at hw
        subst hw
        rw [lastWrite_concat_self, Option.some.injEq] at h
        subst h
        exact ⟨writes, [], rfl, fun w hw => absurd hw List.not_mem_nil⟩
      · have hnone : lastWrite i [w] = none := lastWrite_eq_none.mpr (by simpa using hw)
        rw [lastWrite_append, hnone, Option.none_or] at h
        have ⟨pre, post, hwrites, hpost⟩ := ih h
        refine ⟨pre, post ++ [w], by rw [hwrites, List.append_assoc]; rfl, ?_⟩
        intro x hx
        rcases List.mem_append.mp hx with hx | hx
        · exact hpost x hx
        · rw [List.mem_singleton.mp hx]
          exact hw
  · intro h
    have ⟨pre, post, hwrites, hpost⟩ := h
    have hnone : lastWrite i post = none := lastWrite_eq_none.mpr hpost
    rw [hwrites, List.append_cons, lastWrite_append, hnone, Option.none_or, lastWrite_concat_self]

namespace RegisterFile

/-- A record that is given by its fields. -/
def ofBuild (get : σ → (i : ι) → β i) (build : ((i : ι) → β i) → σ)
    (get_build : ∀ v, get (build v) = v) (build_get : ∀ s, build (get s) = s) :
    RegisterFile σ ι β where
  get := get
  set s i v := build (Function.update (get s) i v)
  get_set_self s i v := by rw [get_build, Function.update_self]
  get_set_of_ne s i j v h := by rw [get_build, Function.update_of_ne h]
  ext s t h := by rw [← build_get s, ← build_get t, funext h]

variable (rf : RegisterFile σ ι β)

def write (s : σ) (w : Sigma β) : σ := rf.set s w.1 w.2

def run (writes : List (Sigma β)) (s : σ) : σ := writes.foldl rf.write s

/-- Each field holds the last value written to it. -/
theorem get_run (writes : List (Sigma β)) (s : σ) (i : ι) :
    rf.get (rf.run writes s) i = (lastWrite i writes).getD (rf.get s i) := by
  unfold run
  induction writes using List.reverseRecOn with
  | nil => rfl
  | append_singleton writes w ih =>
    rw [List.foldl_append]
    show rf.get (rf.set (writes.foldl rf.write s) w.1 w.2) i = _
    by_cases hw : w.1 = i
    · rcases w with ⟨j, u⟩
      change j = i at hw
      subst hw
      rw [rf.get_set_self, lastWrite_concat_self]
      rfl
    · have hnone : lastWrite i [w] = none := lastWrite_eq_none.mpr (by simpa using hw)
      rw [rf.get_set_of_ne _ _ _ _ (Ne.symm hw), ih, lastWrite_append, hnone, Option.none_or]

omit [DecidableEq ι] in
theorem runSchedule_eq_run (s : σ) (sched : List (κ × Sigma β)) :
    runSchedule rf.write s sched = rf.run (sched.map Prod.snd) s := by
  unfold runSchedule run
  rw [List.foldl_map]

end RegisterFile

/-! ## Interleaved writes -/

-- The last write to a field, with the task that makes it.
theorem lastWrite_schedule_iff {sched : List (κ × Sigma β)} {i : ι} {v : β i} :
    lastWrite i (sched.map Prod.snd) = some v ↔
      ∃ k pre post, sched = pre ++ (k, ⟨i, v⟩) :: post ∧ ∀ e ∈ post, e.2.1 ≠ i := by
  rw [lastWrite_eq_some_iff]
  apply Iff.intro
  · intro h
    have ⟨pre, post, hsplit, hpost⟩ := h
    have ⟨pre', rest, hsched, _, hrest⟩ := List.map_eq_append_iff.mp hsplit
    have ⟨e, post', hcons, he, hpost'⟩ := List.map_eq_cons_iff.mp hrest
    refine ⟨e.1, pre', post', ?_, ?_⟩
    · rw [hsched, hcons, ← he]
    · intro x hx
      apply hpost x.2
      rw [← hpost']
      exact List.mem_map_of_mem hx
  · intro h
    have ⟨k, pre, post, hsched, hpost⟩ := h
    refine ⟨pre.map Prod.snd, post.map Prod.snd, by rw [hsched, List.map_append]; rfl, ?_⟩
    intro w hw
    have ⟨e, he, hew⟩ := List.mem_map.mp hw
    rw [← hew]
    exact hpost e he

/-- In any interleaving of any writes, a field holds the last value that one of the tasks writes to
it, or its old value where none does. -/
theorem RegisterFile.get_interleaved [DecidableEq κ] (rf : RegisterFile σ ι β)
    {tasks : κ → List (Sigma β)} {sched : List (κ × Sigma β)} (hs : Interleaves tasks sched) (s : σ)
    (i : ι) :
    (∃ k v, lastWrite i (tasks k) = some v ∧ rf.get (runSchedule rf.write s sched) i = v) ∨
      (∀ k, lastWrite i (tasks k) = none) ∧
        rf.get (runSchedule rf.write s sched) i = rf.get s i := by
  rw [rf.runSchedule_eq_run, rf.get_run]
  cases hlast : lastWrite i (sched.map Prod.snd) with
  | none =>
    refine Or.inr ⟨fun k => lastWrite_eq_none.mpr fun w hw => ?_, rfl⟩
    rw [← hs k] at hw
    exact lastWrite_eq_none.mp hlast w (List.mem_map_of_mem (mem_of_mem_ownSteps hw))
  | some v =>
    have ⟨k, pre, post, hsched, hpost⟩ := lastWrite_schedule_iff.mp hlast
    refine Or.inl ⟨k, v, ?_, rfl⟩
    rw [← hs k, hsched, ownSteps_append, ownSteps_cons_self]
    apply lastWrite_eq_some_iff.mpr
    exact ⟨_, _, rfl, fun w hw => hpost _ (mem_of_mem_ownSteps hw)⟩

/-! ## Whole records -/

-- Write every field once, in the given order.
def publish (order : List ι) (v : (i : ι) → β i) : List (Sigma β) := order.map fun i => ⟨i, v i⟩

section Publish

variable {order : List ι}

theorem lastWrite_publish (hnodup : order.Nodup) (v : (i : ι) → β i) {i : ι} (hi : i ∈ order) :
    lastWrite i (publish order v) = some (v i) := by
  have ⟨l, r, horder⟩ := List.append_of_mem hi
  rw [horder] at hnodup ⊢
  apply lastWrite_eq_some_iff.mpr
  refine ⟨publish l v, publish r v, by simp [publish], ?_⟩
  intro w hw
  have ⟨j, hj, hjw⟩ := List.mem_map.mp hw
  rw [← hjw]
  intro hji
  change j = i at hji
  subst hji
  exact (List.nodup_cons.mp hnodup.of_append_right).1 hj

variable [DecidableEq κ] (rf : RegisterFile σ ι β)

omit [DecidableEq κ] in
theorem exists_get [Nonempty σ] (hnodup : order.Nodup) (hall : ∀ i, i ∈ order) (v : (i : ι) → β i) :
    ∃ s, ∀ i, rf.get s i = v i := by
  have ⟨s⟩ := ‹Nonempty σ›
  refine ⟨rf.run (publish order v) s, fun i => ?_⟩
  rw [rf.get_run, lastWrite_publish hnodup v (hall i)]
  rfl

-- In an interleaving of publications a field holds what some task publishes there.
theorem exists_get_of_interleaves [Nonempty κ] (hnodup : order.Nodup) (hall : ∀ i, i ∈ order)
    {v : κ → (i : ι) → β i} {sched : List (κ × Sigma β)}
    (hs : Interleaves (fun k => publish order (v k)) sched) (s : σ) (i : ι) :
    ∃ k, rf.get (runSchedule rf.write s sched) i = v k i := by
  rcases rf.get_interleaved hs s i with ⟨k, x, hx, hget⟩ | ⟨hnone, _⟩
  · rw [lastWrite_publish hnodup (v k) (hall i), Option.some.injEq] at hx
    exact ⟨k, hget.trans hx.symm⟩
  · have ⟨k⟩ := ‹Nonempty κ›
    have hpub := lastWrite_publish hnodup (v k) (hall i)
    rw [hnone k] at hpub
    cases hpub

-- All tasks write one field, the winner last.
noncomputable def fieldRound [Fintype κ] (v : κ → (i : ι) → β i) (winner : ι → κ) (i : ι) :
    List (κ × Sigma β) :=
  ((Finset.univ.erase (winner i)).toList.flatMap fun k => tagged k [⟨i, v k i⟩]) ++
    tagged (winner i) [⟨i, v (winner i) i⟩]

omit [DecidableEq ι] in
theorem ownSteps_fieldRound [Fintype κ] (v : κ → (i : ι) → β i) (winner : ι → κ) (i : ι) (k : κ) :
    ownSteps (fieldRound v winner i) k = [⟨i, v k i⟩] := by
  unfold fieldRound
  rw [ownSteps_append,
    ownSteps_flatMap_tagged (fun k => [(⟨i, v k i⟩ : Sigma β)]) (Finset.nodup_toList _)]
  by_cases hk : winner i = k
  · subst hk
    simp [ownSteps_tagged_self]
  · rw [ownSteps_tagged_of_ne hk, if_pos (by simpa using Ne.symm hk), List.append_nil]

omit [DecidableEq ι] in
theorem field_of_mem_fieldRound [Fintype κ] {v : κ → (i : ι) → β i} {winner : ι → κ} {i : ι}
    {e : κ × Sigma β} (he : e ∈ fieldRound v winner i) : e.2.1 = i := by
  have hown := mem_ownSteps he
  rw [ownSteps_fieldRound] at hown
  rw [List.mem_singleton.mp hown]

omit [DecidableEq ι] in
theorem interleaves_rounds [Fintype κ] (v : κ → (i : ι) → β i) (winner : ι → κ) :
    Interleaves (fun k => publish order (v k)) (order.flatMap (fieldRound v winner)) := by
  intro k
  induction order with
  | nil => rfl
  | cons i order ih =>
    rw [List.flatMap_cons, ownSteps_append, ownSteps_fieldRound, ih]
    rfl

theorem lastWrite_rounds [Fintype κ] (hnodup : order.Nodup) (v : κ → (i : ι) → β i)
    (winner : ι → κ) {i : ι} (hi : i ∈ order) :
    lastWrite i ((order.flatMap (fieldRound v winner)).map Prod.snd) = some (v (winner i) i) := by
  have ⟨l, r, horder⟩ := List.append_of_mem hi
  rw [horder] at hnodup ⊢
  have hr : i ∉ r := (List.nodup_cons.mp hnodup.of_append_right).1
  have hlater : lastWrite i ((r.flatMap (fieldRound v winner)).map Prod.snd) = none := by
    apply lastWrite_eq_none.mpr
    intro w hw hwi
    have ⟨e, he, hew⟩ := List.mem_map.mp hw
    have ⟨j, hj, hej⟩ := List.mem_flatMap.mp he
    rw [← hew, field_of_mem_fieldRound hej] at hwi
    exact hr (hwi ▸ hj)
  have hround : lastWrite i ((fieldRound v winner i).map Prod.snd) = some (v (winner i) i) := by
    unfold fieldRound
    rw [List.map_append]
    exact lastWrite_concat_self i _ _
  rw [List.flatMap_append, List.flatMap_cons, List.map_append, List.map_append, lastWrite_append,
    lastWrite_append, hlater, hround]
  rfl

/-- **Races leave mixtures, and every mixture.**  The records that interleaved publications can leave
are those that agree with some task on each field. -/
theorem race_outcomes [Fintype κ] [Nonempty κ] (hnodup : order.Nodup) (hall : ∀ i, i ∈ order)
    (v : κ → (i : ι) → β i) (s m : σ) :
    (∃ sched, Interleaves (fun k => publish order (v k)) sched ∧
      runSchedule rf.write s sched = m) ↔ ∀ i, ∃ k, rf.get m i = v k i := by
  apply Iff.intro
  · intro h i
    have ⟨sched, hs, hm⟩ := h
    rw [← hm]
    exact exists_get_of_interleaves rf hnodup hall hs s i
  · intro h
    choose winner hwinner using h
    refine ⟨order.flatMap (fieldRound v winner), interleaves_rounds v winner, ?_⟩
    apply rf.ext
    intro i
    rw [rf.runSchedule_eq_run, rf.get_run, lastWrite_rounds hnodup v winner (hall i), hwinner]
    rfl

end Publish

end Bms.Reasoning
