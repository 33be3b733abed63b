import Bms.Reasoning.RegisterFile

/-!
# Records whose fields are records

A field that is a record itself, as an array is of its elements, is written element by element.  A
write of such a field amounts to the writes of its elements, so records written field by field are
also written element by element, and an element holds its part of the last value written to its
field.
-/

namespace Bms.Reasoning

namespace RegisterFile

/-- A value as a record with one field. -/
def single (α : Type*) : RegisterFile α (Fin 1) fun _ => α where
  get v _ := v
  set _ _ x := x
  get_set_self _ _ _ := rfl
  get_set_of_ne _ i j _ h := absurd (Subsingleton.elim j i) h
  ext _ _ h := h 0

/-- An array as the record of its elements. -/
def vector (α : Type*) (n : ℕ) : RegisterFile (Vector α n) (Fin n) fun _ => α where
  get v i := v[i]
  set v i x := v.set i x
  get_set_self v i x := Vector.getElem_set_self i.isLt
  get_set_of_ne v i j x h := Vector.getElem_set_ne i.isLt j.isLt fun hij => h (Fin.ext hij.symm)
  ext v w h := Vector.ext fun i hi => h ⟨i, hi⟩

variable {σ ι : Type*} {β : ι → Type*} {ε : ι → Type*} {γ : (i : ι) → ε i → Type*} [DecidableEq ι]

/-- The elements of all fields as the fields of one record. -/
def nested (rf : RegisterFile σ ι β) (sub : (i : ι) → RegisterFile (β i) (ε i) (γ i)) :
    RegisterFile σ (Sigma ε) fun p => γ p.1 p.2 where
  get s p := (sub p.1).get (rf.get s p.1) p.2
  set s p x := rf.set s p.1 ((sub p.1).set (rf.get s p.1) p.2 x)
  get_set_self s p x := by rw [rf.get_set_self, (sub p.1).get_set_self]
  get_set_of_ne s p q x h := by
    rcases p with ⟨i, e⟩
    rcases q with ⟨j, e'⟩
    by_cases hij : j = i
    · subst hij
      have he : e' ≠ e := fun heq => h (by rw [heq])
      rw [rf.get_set_self, (sub j).get_set_of_ne _ _ _ _ he]
    · rw [rf.get_set_of_ne _ _ _ _ hij]
  ext s t h := by
    apply rf.ext
    intro i
    apply (sub i).ext
    intro e
    exact h ⟨i, e⟩

end RegisterFile

/-! ## Writes element by element -/

/-- A write of a field that stores the elements one by one, in some order. -/
structure ElementwiseWrite {ι : Type*} (β ε : ι → Type*) where
  field : ι
  value : β field
  order : List (ε field)
  nodup : order.Nodup
  mem_order : ∀ e, e ∈ order

variable {σ ι : Type*} {β : ι → Type*} {ε : ι → Type*} {γ : (i : ι) → ε i → Type*}

namespace ElementwiseWrite

def write (w : ElementwiseWrite β ε) : Sigma β := ⟨w.field, w.value⟩

variable (sub : (i : ι) → RegisterFile (β i) (ε i) (γ i))

def stores (w : ElementwiseWrite β ε) : List (Sigma fun p : Sigma ε => γ p.1 p.2) :=
  w.order.map fun e => ⟨⟨w.field, e⟩, (sub w.field).get w.value e⟩

theorem field_of_mem_stores {w : ElementwiseWrite β ε} {store : Sigma fun p : Sigma ε => γ p.1 p.2}
    (h : store ∈ w.stores sub) : store.1.1 = w.field := by
  have ⟨e, _, he⟩ := List.mem_map.mp h
  rw [← he]

variable [DecidableEq ι] [∀ i, DecidableEq (ε i)]

theorem lastWrite_stores (w : ElementwiseWrite β ε) (e : ε w.field) :
    lastWrite (⟨w.field, e⟩ : Sigma ε) (w.stores sub) = some ((sub w.field).get w.value e) := by
  have ⟨l, r, hsplit⟩ := List.append_of_mem (w.mem_order e)
  have hr : e ∉ r := by
    have hnodup := w.nodup
    rw [hsplit] at hnodup
    exact (List.nodup_cons.mp hnodup.of_append_right).1
  apply lastWrite_eq_some_iff.mpr
  unfold stores
  rw [hsplit, List.map_append, List.map_cons]
  refine ⟨_, _, rfl, fun store hstore => ?_⟩
  have ⟨e', he', hstored⟩ := List.mem_map.mp hstore
  rw [← hstored]
  intro heq
  exact hr (eq_of_heq (Sigma.mk.inj heq).2 ▸ he')

/-- An element holds its part of the last value written to its field. -/
theorem lastWrite_flatMap_stores (writes : List (ElementwiseWrite β ε)) (i : ι) (e : ε i) :
    lastWrite (⟨i, e⟩ : Sigma ε) (writes.flatMap (stores sub)) =
      (lastWrite i (writes.map write)).map fun v => (sub i).get v e := by
  induction writes using List.reverseRecOn with
  | nil => rfl
  | append_singleton writes w ih =>
    rw [List.flatMap_append, List.flatMap_singleton, List.map_append, List.map_singleton,
      lastWrite_append, lastWrite_append, ih]
    by_cases hw : w.field = i
    · subst hw
      have hfield : lastWrite w.field [w.write] = some w.value := lastWrite_concat_self w.field [] _
      rw [w.lastWrite_stores, hfield]
      rfl
    · have hnone : lastWrite (⟨i, e⟩ : Sigma ε) (w.stores sub) = none := by
        apply lastWrite_eq_none.mpr
        intro store hstore heq
        rw [← field_of_mem_stores sub hstore, heq] at hw
        exact hw rfl
      have hfield : lastWrite i [w.write] = none :=
        lastWrite_eq_none.mpr fun _ h => by rwa [List.mem_singleton.mp h]
      rw [hnone, hfield, Option.none_or, Option.none_or]

/-- Writing fields element by element is writing the fields. -/
theorem run_stores (rf : RegisterFile σ ι β) (writes : List (ElementwiseWrite β ε)) (s : σ) :
    (rf.nested sub).run (writes.flatMap (stores sub)) s = rf.run (writes.map write) s := by
  apply (rf.nested sub).ext
  intro p
  rw [(rf.nested sub).get_run, lastWrite_flatMap_stores]
  show _ = (sub p.1).get (rf.get (rf.run (writes.map write) s) p.1) p.2
  rw [rf.get_run]
  cases lastWrite p.1 (writes.map write) with
  | none => rfl
  | some v => rfl

end ElementwiseWrite

/-! ## Orders of elements -/

/-- An order of the fields and, in each field, an order of its elements. -/
structure NestedOrder (ι : Type*) (ε : ι → Type*) where
  fields : List ι
  elems : (i : ι) → List (ε i)
  nodup : fields.Nodup
  mem_fields : ∀ i, i ∈ fields
  nodup_elems : ∀ i, (elems i).Nodup
  mem_elems : ∀ i e, e ∈ elems i

namespace NestedOrder

variable (order : NestedOrder ι ε)

def elements : List (Sigma ε) := order.fields.flatMap fun i => (order.elems i).map (Sigma.mk i)

-- Write every field once.
def writes (v : (i : ι) → β i) : List (ElementwiseWrite β ε) :=
  order.fields.map fun i => ⟨i, v i, order.elems i, order.nodup_elems i, order.mem_elems i⟩

theorem stores_writes (sub : (i : ι) → RegisterFile (β i) (ε i) (γ i)) (v : (i : ι) → β i) :
    (order.writes v).flatMap (ElementwiseWrite.stores sub) =
      publish order.elements fun p => (sub p.1).get (v p.1) p.2 := by
  unfold publish elements writes ElementwiseWrite.stores
  rw [List.flatMap_map, List.map_flatMap]
  simp only [List.map_map]
  rfl

theorem nodup_elements : order.elements.Nodup := by
  apply List.nodup_flatMap.mpr
  refine ⟨fun i _ => (order.nodup_elems i).map sigma_mk_injective, order.nodup.imp ?_⟩
  intro i j hij
  apply List.disjoint_left.mpr
  intro p hp hp'
  have ⟨e, _, he⟩ := List.mem_map.mp hp
  have ⟨e', _, he'⟩ := List.mem_map.mp hp'
  have hfields := congrArg Sigma.fst (he.trans he'.symm)
  exact hij hfields

theorem mem_elements (p : Sigma ε) : p ∈ order.elements :=
  List.mem_flatMap.mpr ⟨p.1, order.mem_fields p.1, List.mem_map_of_mem (order.mem_elems p.1 p.2)⟩

-- The first elements of the fields, in the order of the fields.
theorem map_fst_filter_elements [∀ i, DecidableEq (ε i)] (first : (i : ι) → ε i) :
    (order.elements.filter fun p => p.2 = first p.1).map Sigma.fst = order.fields := by
  unfold elements
  induction order.fields with
  | nil => rfl
  | cons i fields ih =>
    have hone : (order.elems i).filter (fun e => e = first i) = [first i] := by
      rw [List.filter_eq,
        List.count_eq_one_of_mem (order.nodup_elems i) (order.mem_elems i (first i)),
        List.replicate_one]
    rw [List.flatMap_cons, List.filter_append, List.map_append, ih, List.filter_map]
    show (((order.elems i).filter fun e => e = first i).map (Sigma.mk i)).map Sigma.fst ++ _ = _
    rw [hone]
    rfl

theorem filterMap_elements [DecidableEq ι] (i : ι) :
    order.elements.filterMap (writtenTo i) = order.elems i := by
  have hother (fields : List ι) (hi : i ∉ fields) :
      (fields.flatMap fun j => (order.elems j).map (Sigma.mk j)).filterMap (writtenTo i) = [] := by
    apply List.filterMap_eq_nil_iff.mpr
    intro p hp
    have ⟨j, hj, hpj⟩ := List.mem_flatMap.mp hp
    have ⟨e, _, he⟩ := List.mem_map.mp hpj
    apply writtenTo_of_ne
    rw [← he]
    intro hji
    exact hi (hji ▸ hj)
  have hself : ((order.elems i).map (Sigma.mk i)).filterMap (writtenTo i) = order.elems i := by
    have hsome : (writtenTo i ∘ Sigma.mk i : ε i → Option (ε i)) = some :=
      funext fun e => writtenTo_self i e
    rw [List.filterMap_map, hsome, List.filterMap_some]
  have ⟨l, r, hsplit⟩ := List.append_of_mem (order.mem_fields i)
  have hnodup := order.nodup
  rw [hsplit] at hnodup
  have hl : i ∉ l := fun h => (List.disjoint_of_nodup_append hnodup) h List.mem_cons_self
  have hr : i ∉ r := (List.nodup_cons.mp hnodup.of_append_right).1
  unfold elements
  rw [hsplit, List.flatMap_append, List.flatMap_cons, List.filterMap_append, List.filterMap_append,
    hother l hl, hother r hr, hself, List.append_nil]
  rfl

/-- Where every field has an element, the elements tell the order. -/
theorem elements_injective [DecidableEq ι] [∀ i, DecidableEq (ε i)] (first : (i : ι) → ε i) :
    Function.Injective fun order : NestedOrder ι ε => order.elements := by
  intro order order' h
  change order.elements = order'.elements at h
  have hfields : order.fields = order'.fields := by
    rw [← order.map_fst_filter_elements first, ← order'.map_fst_filter_elements first, h]
  have helems : order.elems = order'.elems := by
    funext i
    rw [← order.filterMap_elements i, ← order'.filterMap_elements i, h]
  cases order
  cases order'
  cases hfields
  cases helems
  rfl

end NestedOrder

end Bms.Reasoning
