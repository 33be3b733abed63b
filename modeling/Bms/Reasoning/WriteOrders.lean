import Bms.Reasoning.RegisterFile

/-!
# Races between different orders of writing

Tasks that write all fields of a record, each in its own order.  If two tasks write two fields in
opposite orders, the first written field of each cannot be the one that stays, so the tasks can leave
every mixture of their records only where all of them write in one order.
-/

namespace Bms.Reasoning

-- Different orders of the same fields have a pair that stands in opposite orders.
theorem exists_reversed {ι : Type*} {l l' : List ι} (hperm : l.Perm l') (hne : l ≠ l') :
    ∃ x y, [x, y].Sublist l ∧ [y, x].Sublist l' := by
  induction l generalizing l' with
  | nil => exact absurd hperm.nil_eq hne
  | cons a l ih =>
    cases l' with
    | nil => cases hperm.symm.nil_eq
    | cons b l' =>
      by_cases hab : a = b
      · subst hab
        have hrest : l ≠ l' := fun h => hne (by rw [h])
        have ⟨x, y, hx, hy⟩ := ih (List.perm_cons a |>.mp hperm) hrest
        exact ⟨x, y, hx.cons a, hy.cons a⟩
      · have hb : b ∈ l := (List.mem_cons.mp (hperm.mem_iff.mpr List.mem_cons_self)).resolve_left
          (Ne.symm hab)
        have ha : a ∈ l' := (List.mem_cons.mp (hperm.mem_iff.mp List.mem_cons_self)).resolve_left hab
        exact ⟨a, b, (List.singleton_sublist.mpr hb).cons_cons a,
          (List.singleton_sublist.mpr ha).cons_cons b⟩

theorem mem_of_sublist_split {ι : Type*} {l r : List ι} {x y : ι}
    (h : [x, y].Sublist (l ++ x :: r)) (hnodup : (l ++ x :: r).Nodup) : y ∈ r := by
  have hx : x ∉ l := fun hx => List.disjoint_of_nodup_append hnodup hx List.mem_cons_self
  have ⟨l₁, l₂, happend, hl, hr⟩ := List.sublist_append_iff.mp h
  cases l₁ with
  | nil =>
    rw [List.nil_append] at happend
    rw [← happend] at hr
    exact List.singleton_sublist.mp (List.cons_sublist_cons.mp hr)
  | cons a l₁ =>
    have ha : x = a := (List.cons.inj happend).1
    rw [ha] at hx
    exact absurd (hl.subset List.mem_cons_self) hx

-- What is behind one step of a list and not behind another makes the first stand before the second.
theorem length_lt_of_mem_post {α : Type*} {s pre pre' post post' : List α} {a a' x : α}
    (hs : s = pre ++ a :: post) (hs' : s = pre' ++ a' :: post') (hx : x ∈ post) (hx' : x ∉ post') :
    post'.length < post.length := by
  have hsuffix : post.IsSuffix s := ⟨pre ++ [a], by rw [hs, List.append_assoc]; rfl⟩
  have hsuffix' : post'.IsSuffix s := ⟨pre' ++ [a'], by rw [hs', List.append_assoc]; rfl⟩
  rcases Nat.lt_or_ge post'.length post.length with hlt | hle
  · exact hlt
  · exact absurd ((List.suffix_of_suffix_length_le hsuffix hsuffix' hle).subset hx) hx'

variable {σ ι κ : Type*} {β : ι → Type*} [DecidableEq ι] [DecidableEq κ]

section

variable {orders : κ → List ι} (hnodup : ∀ k, (orders k).Nodup) {v : κ → (i : ι) → β i}
  {sched : List (κ × Sigma β)} (hs : Interleaves (fun k => publish (orders k) (v k)) sched)
include hs

omit [DecidableEq ι] in
theorem value_of_mem_sched {e : κ × Sigma β} (he : e ∈ sched) : e.2.2 = v e.1 e.2.1 := by
  have hmem := mem_ownSteps he
  rw [hs e.1] at hmem
  have ⟨i, _, hi⟩ := List.mem_map.mp hmem
  rw [← hi]

-- The last write of a field decides what it holds.
theorem exists_last_write [Nonempty κ] (rf : RegisterFile σ ι β) (hall : ∀ k i, i ∈ orders k) (s : σ)
    (i : ι) : ∃ k pre post, sched = pre ++ (k, ⟨i, v k i⟩) :: post ∧ (∀ e ∈ post, e.2.1 ≠ i) ∧
      rf.get (runSchedule rf.write s sched) i = v k i := by
  rw [rf.runSchedule_eq_run, rf.get_run]
  cases hlast : lastWrite i (sched.map Prod.snd) with
  | none =>
    have ⟨k⟩ := ‹Nonempty κ›
    have hmem : (⟨i, v k i⟩ : Sigma β) ∈ ownSteps sched k := by
      rw [hs k]
      exact List.mem_map_of_mem (hall k i)
    have hne := lastWrite_eq_none.mp hlast _ (List.mem_map_of_mem (mem_of_mem_ownSteps hmem))
    exact absurd rfl hne
  | some u =>
    have ⟨k, pre, post, hsched, hpost⟩ := lastWrite_schedule_iff.mp hlast
    have hu : u = v k i := value_of_mem_sched hs (hsched ▸ List.mem_append_right pre List.mem_cons_self)
    subst hu
    exact ⟨k, pre, post, hsched, hpost, rfl⟩

include hnodup

omit [DecidableEq ι] in
-- Behind its write of a field a task writes the later fields of its order.
theorem exists_later_write {k : κ} {x y : ι} (hxy : [x, y].Sublist (orders k)) {u : β x}
    {pre post : List (κ × Sigma β)} (hsched : sched = pre ++ (k, ⟨x, u⟩) :: post) :
    ∃ e ∈ post, e.2.1 = y := by
  have hown := hs k
  rw [hsched, ownSteps_append, ownSteps_cons_self] at hown
  have ⟨l, rest, horder, _, hrest⟩ := List.map_eq_append_iff.mp hown.symm
  have ⟨x', r, hcons, hx', hr⟩ := List.map_eq_cons_iff.mp hrest
  have hx : x' = x := congrArg Sigma.fst hx'
  subst hx
  rw [hcons] at horder
  have hk := hnodup k
  rw [horder] at hxy hk
  have hy : (⟨y, v k y⟩ : Sigma β) ∈ ownSteps post k := by
    rw [← hr]
    exact List.mem_map_of_mem (mem_of_sublist_split hxy hk)
  exact ⟨_, mem_of_mem_ownSteps hy, rfl⟩

omit [DecidableEq ι] in
/-- Two tasks cannot each win the field that it writes before the field of the other. -/
theorem not_crossed_winners {k k' : κ} {x y : ι} (hxy : [x, y].Sublist (orders k))
    (hyx : [y, x].Sublist (orders k')) {u : β x} {u' : β y} {pre post pre' post' : List (κ × Sigma β)}
    (hx : sched = pre ++ (k, ⟨x, u⟩) :: post) (hxpost : ∀ e ∈ post, e.2.1 ≠ x)
    (hy : sched = pre' ++ (k', ⟨y, u'⟩) :: post') (hypost : ∀ e ∈ post', e.2.1 ≠ y) : False := by
  have ⟨e, he, hey⟩ := exists_later_write hnodup hs hxy hx
  have ⟨e', he', hex⟩ := exists_later_write hnodup hs hyx hy
  have hlt := length_lt_of_mem_post hx hy he fun h => hypost e h hey
  have hlt' := length_lt_of_mem_post hy hx he' fun h => hxpost e' h hex
  omega

end

section

variable [Nonempty σ] [∀ i, Nontrivial (β i)] (rf : RegisterFile σ ι β) {orders : κ → List ι}

-- Tasks with different orders have records of which some mixture is never left.
theorem exists_unreachable_mixture [Nonempty κ] (hnodup : ∀ k, (orders k).Nodup)
    (hall : ∀ k i, i ∈ orders k) {k k' : κ} (hne : orders k ≠ orders k') :
    ∃ (records : κ → σ) (m : σ), (∀ i, ∃ j, rf.get m i = rf.get (records j) i) ∧
      ∀ s sched, Interleaves (fun j => publish (orders j) (rf.get (records j))) sched →
        runSchedule rf.write s sched ≠ m := by
  have hperm : (orders k).Perm (orders k') :=
    (List.perm_ext_iff_of_nodup (hnodup k) (hnodup k')).mpr fun i =>
      iff_of_true (hall k i) (hall k' i)
  have ⟨x, y, hxy, hyx⟩ := exists_reversed hperm hne
  have hother : y ≠ x := by
    have htwo := (hnodup k).sublist hxy
    simpa [eq_comm] using htwo
  choose a b hab using fun i => exists_pair_ne (β i)
  -- `k` is to win the field `x` that it writes first, and `k'` the field `y`; only a winner has `a`.
  let winner : ι → κ := fun i => if i = x then k else k'
  let v : κ → (i : ι) → β i := fun j i => if j = winner i then a i else b i
  choose records hrecords using fun j => exists_get rf (hnodup k) (hall k) (v j)
  have ⟨m, hm⟩ := exists_get rf (hnodup k) (hall k) a
  have hmixture (i : ι) : ∃ j, rf.get m i = rf.get (records j) i := by
    refine ⟨winner i, ?_⟩
    rw [hm, hrecords]
    exact (if_pos rfl).symm
  refine ⟨records, m, hmixture, fun s sched hs hrun => ?_⟩
  have hwins (i : ι) : ∃ pre post u, sched = pre ++ (winner i, ⟨i, u⟩) :: post ∧
      ∀ e ∈ post, e.2.1 ≠ i := by
    have ⟨j, pre, post, hsched, hpost, hj⟩ := exists_last_write hs rf hall s i
    have hwinner : j = winner i := by
      by_contra hloser
      rw [hrun, hm, hrecords] at hj
      exact hab i (hj.trans (if_neg hloser))
    subst hwinner
    exact ⟨pre, post, _, hsched, hpost⟩
  have ⟨pre, post, u, hx, hxpost⟩ := hwins x
  have ⟨pre', post', u', hy, hypost⟩ := hwins y
  have hwx : winner x = k := if_pos rfl
  have hwy : winner y = k' := if_neg hother
  rw [hwx] at hx
  rw [hwy] at hy
  exact not_crossed_winners hnodup hs hxy hyx hx hxpost hy hypost

/-- **Every mixture needs one order.**  The records that tasks can leave that write all fields are
exactly the mixtures of their records, whatever these are, when all tasks write in one order, and
only then. -/
theorem mixtures_iff_one_order [Fintype κ] [Nonempty κ] (hnodup : ∀ k, (orders k).Nodup)
    (hall : ∀ k i, i ∈ orders k) :
    (∀ (records : κ → σ) (s m : σ),
      (∃ sched, Interleaves (fun k => publish (orders k) (rf.get (records k))) sched ∧
        runSchedule rf.write s sched = m) ↔ ∀ i, ∃ k, rf.get m i = rf.get (records k) i) ↔
      ∀ k k', orders k = orders k' := by
  apply Iff.intro
  · intro h k k'
    by_contra hne
    have ⟨records, m, hmixture, hnever⟩ := exists_unreachable_mixture rf hnodup hall hne
    have ⟨sched, hs, hrun⟩ := (h records m m).mpr hmixture
    exact hnever m sched hs hrun
  · intro h records s m
    have ⟨k₀⟩ := ‹Nonempty κ›
    have hsame : (fun k => publish (orders k) (rf.get (records k))) =
        fun k => publish (orders k₀) (rf.get (records k)) := by
      funext k
      rw [h k k₀]
    rw [hsame]
    exact race_outcomes rf (hnodup k₀) (hall k₀) (fun k => rf.get (records k)) s m

end

end Bms.Reasoning
