import NominalTypes.TypeExpr.Occurrences

/-!
# Conditions on everything a type mentions

* `TypeExpr.All`: a condition on each instance that a type mentions, at any depth and in bounds too,
  and `TypeExpr.Everywhere` when it depends on the parameters bound and not on their types;
* `TypeExpr.Distinct`: no argument list binds a parameter twice;
* `TypeExpr.occurrences`: the variables that substitution meets, which are those outside bounds.
-/

namespace NominalTypes

namespace TypeExpr

/-! ## Instances -/

/-- A condition on the definition and the arguments of each instance that the type mentions. -/
def All (P : Definition → List (String × TypeExpr) → Prop) (t : TypeExpr) : Prop :=
  ∀ i ∈ t.instances, P i.definition i.args

instance (P : Definition → List (String × TypeExpr) → Prop) [∀ d args, Decidable (P d args)]
    (t : TypeExpr) : Decidable (t.All P) :=
  inferInstanceAs (Decidable (∀ i ∈ t.instances, P i.definition i.args))

section All

variable {P Q : Definition → List (String × TypeExpr) → Prop}

@[simp] theorem all_inst {d : Definition} {args : List (String × TypeExpr)} {n : Bool} :
    (inst d args n).All P ↔ P d args ∧ ∀ e ∈ args, e.2.All P := by
  simp only [All, instances, instancesOfEach_eq_flatMap, List.forall_mem_cons, List.mem_flatMap]
  constructor
  · rintro ⟨hd, h⟩
    exact ⟨hd, fun e he i hi => h i ⟨e, he, hi⟩⟩
  · rintro ⟨hd, h⟩
    refine ⟨hd, ?_⟩
    rintro i ⟨e, he, hi⟩
    exact h e he i hi

@[simp] theorem all_var {x : String} {n : Bool} : (var x none n).All P := by
  simp [All, instances]

@[simp] theorem all_bounded {x : String} {b : TypeExpr} {n : Bool} :
    (var x (some b) n).All P ↔ b.All P := by
  simp [All, instances]

@[simp] theorem all_fn {params : List (String × TypeExpr)} {result : TypeExpr} :
    (fn params result).All P ↔ (∀ e ∈ params, e.2.All P) ∧ result.All P := by
  simp only [All, instances, instancesOfEach_eq_flatMap, List.mem_append, List.mem_flatMap]
  constructor
  · intro h
    exact ⟨fun e he i hi => h i (.inl ⟨e, he, hi⟩), fun i hi => h i (.inr hi)⟩
  · rintro ⟨hp, hr⟩ i (⟨e, he, hi⟩ | hi)
    · exact hp e he i hi
    · exact hr i hi

@[simp] theorem all_toNullable {t : TypeExpr} : t.toNullable.All P ↔ t.All P := by
  cases t with
  | inst d args n => simp only [toNullable, all_inst]
  | var x b n => cases b <;> simp [toNullable]
  | fn params result => rfl

theorem All.imp {t : TypeExpr} (h : t.All P) (hPQ : ∀ d args, P d args → Q d args) : t.All Q :=
  fun i hi => hPQ _ _ (h i hi)

/-- What an instance in a type mentions, the type mentions. -/
theorem instances_subset {t : TypeExpr} {i : Instance} (hi : i ∈ t.instances) :
    i.toExpr.instances ⊆ t.instances := by
  induction t with
  | inst d args n ih =>
    rw [instances, instancesOfEach_eq_flatMap] at hi ⊢
    rcases List.mem_cons.mp hi with rfl | hi
    · rw [Instance.toExpr, instances, instancesOfEach_eq_flatMap]
      exact List.Subset.refl _
    · obtain ⟨e, he, hi⟩ := List.mem_flatMap.mp hi
      intro j hj
      exact List.mem_cons_of_mem _ (List.mem_flatMap.mpr ⟨e, he, ih e he hi hj⟩)
  | var x n => exact absurd hi List.not_mem_nil
  | bounded x b n ih => exact ih hi
  | fn params result ihp ihr =>
    rw [instances, instancesOfEach_eq_flatMap] at hi ⊢
    rcases List.mem_append.mp hi with hi | hi
    · obtain ⟨e, he, hi⟩ := List.mem_flatMap.mp hi
      intro j hj
      exact List.mem_append_left _ (List.mem_flatMap.mpr ⟨e, he, ihp e he hi hj⟩)
    · exact fun j hj => List.mem_append_right _ (ihr hi hj)

theorem All.of_mem_instances {t : TypeExpr} (h : t.All P) {i : Instance} (hi : i ∈ t.instances) :
    i.toExpr.All P := fun j hj => h j (instances_subset hi hj)

end All

/-- A condition that looks at the names of the arguments only. -/
def Everywhere (P : Definition → List String → Prop) (t : TypeExpr) : Prop :=
  ∀ i ∈ t.instances, P i.definition (i.args.map (·.1))

instance (P : Definition → List String → Prop) [∀ d names, Decidable (P d names)] (t : TypeExpr) :
    Decidable (t.Everywhere P) :=
  inferInstanceAs (Decidable (∀ i ∈ t.instances, P i.definition (i.args.map (·.1))))

variable {P Q : Definition → List String → Prop}

theorem everywhere_iff_all {t : TypeExpr} :
    t.Everywhere P ↔ t.All fun d args => P d (args.map (·.1)) := Iff.rfl

@[simp] theorem everywhere_inst {d : Definition} {args : List (String × TypeExpr)} {n : Bool} :
    (inst d args n).Everywhere P ↔ P d (args.map (·.1)) ∧ ∀ e ∈ args, e.2.Everywhere P := by
  simp only [everywhere_iff_all, all_inst]

@[simp] theorem everywhere_var {x : String} {n : Bool} : (var x none n).Everywhere P :=
  everywhere_iff_all.mpr all_var

@[simp] theorem everywhere_bounded {x : String} {b : TypeExpr} {n : Bool} :
    (var x (some b) n).Everywhere P ↔ b.Everywhere P := by
  simp only [everywhere_iff_all, all_bounded]

@[simp] theorem everywhere_fn {params : List (String × TypeExpr)} {result : TypeExpr} :
    (fn params result).Everywhere P ↔
      (∀ e ∈ params, e.2.Everywhere P) ∧ result.Everywhere P := by
  simp only [everywhere_iff_all, all_fn]

@[simp] theorem everywhere_toNullable {t : TypeExpr} :
    t.toNullable.Everywhere P ↔ t.Everywhere P := by
  simp only [everywhere_iff_all, all_toNullable]

theorem Everywhere.imp {t : TypeExpr} (h : t.Everywhere P)
    (hPQ : ∀ d names, P d names → Q d names) : t.Everywhere Q :=
  fun i hi => hPQ _ _ (h i hi)

/-- No argument list binds a parameter twice. -/
def Distinct (t : TypeExpr) : Prop := t.Everywhere fun _ names => names.Nodup

instance (t : TypeExpr) : Decidable t.Distinct := inferInstanceAs (Decidable (t.Everywhere _))

/-! ## Variables -/

/-- Induction for what does not look into bounds. -/
@[elab_as_elim]
theorem inductOutsideBounds {P : TypeExpr → Prop}
    (inst : ∀ d args n, (∀ e ∈ args, P e.2) → P (.inst d args n))
    (var : ∀ x b n, P (.var x b n))
    (fn : ∀ params result, (∀ e ∈ params, P e.2) → P result → P (.fn params result))
    (t : TypeExpr) : P t := by
  induction t with
  | inst d args n ih => exact inst d args n ih
  | var x n => exact var x none n
  | bounded x b n _ => exact var x (some b) n
  | fn params result ihp ihr => exact fn params result ihp ihr

mutual

/-- Every reference to a type parameter that is not part of a bound, in reading order. -/
def occurrences : TypeExpr → List Variable
  | inst _ args _ => occurrencesOfEach args
  | var name bound nullable => [⟨name, bound, nullable⟩]
  | fn params result => occurrencesOfEach params ++ result.occurrences

def occurrencesOfEach : List (String × TypeExpr) → List Variable
  | [] => []
  | (_, t) :: rest => t.occurrences ++ occurrencesOfEach rest

end

theorem occurrencesOfEach_eq_flatMap (types : List (String × TypeExpr)) :
    occurrencesOfEach types = types.flatMap (·.2.occurrences) := by
  induction types with
  | nil => rfl
  | cons e rest ih => rw [occurrencesOfEach, ih, List.flatMap_cons]

theorem occurrences_subset_references (t : TypeExpr) : t.occurrences ⊆ t.references := by
  induction t using inductOutsideBounds with
  | inst d args n ih =>
    intro v hv
    rw [occurrences, occurrencesOfEach_eq_flatMap, List.mem_flatMap] at hv
    obtain ⟨e, he, hv⟩ := hv
    rw [references, referencesOfEach_eq_flatMap, List.mem_flatMap]
    exact ⟨e, he, ih e he hv⟩
  | var x b n =>
    intro v hv
    rw [occurrences, List.mem_singleton] at hv
    subst hv
    cases b <;> simp [references]
  | fn params result ihp ihr =>
    intro v hv
    rw [occurrences, occurrencesOfEach_eq_flatMap, List.mem_append, List.mem_flatMap] at hv
    rw [references, referencesOfEach_eq_flatMap, List.mem_append, List.mem_flatMap]
    rcases hv with ⟨e, he, hv⟩ | hv
    · exact .inl ⟨e, he, ihp e he hv⟩
    · exact .inr (ihr hv)

end TypeExpr

end NominalTypes
