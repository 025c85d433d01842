import NominalTypes.Draft
import NominalTypes.Proofs.Coherence

/-!
# Drafts beside a universe

* `Universe.AdmitsDraft`: what every draft of a session satisfies, kept by each step;
* `Draft.inherit_eq_ok` and its like: the checks that a step has passed, and what it changes;
* `Draft.construct_eq_ok`: the checks that a successful closing has passed, and what it closes;
* `Universe.Coherent.reference`, `Universe.Coherent.construct`: the two operations that change the
  universe leave it coherent and lose nothing.
-/

namespace NominalTypes

/-! ## Attached bounds -/

namespace TypeExpr

variable {parameters : List Parameter}

theorem bound_of_named? {x : String} {b : TypeExpr}
    (h : (Parameter.named? x parameters).bind (·.bound) = some b) :
    ∃ p ∈ parameters, p.bound = some b := by
  obtain ⟨p, hp, hb⟩ := Option.bind_eq_some_iff.mp h
  exact ⟨p, List.mem_of_find?_eq_some hp, hb⟩

theorem Everywhere.withBounds {P : Definition → List String → Prop} {t : TypeExpr}
    (ht : t.Everywhere P) (hp : ∀ p ∈ parameters, ∀ b, p.bound = some b → b.Everywhere P) :
    (t.withBounds parameters).Everywhere P := by
  induction t with
  | inst d args n ih =>
    obtain ⟨hd, hargs⟩ := everywhere_inst.mp ht
    rw [TypeExpr.withBounds, everywhere_inst, withBoundsEach_eq_map, List.map_map]
    refine ⟨hd, ?_⟩
    intro e he
    obtain ⟨f, hf, rfl⟩ := List.mem_map.mp he
    exact ih f hf (hargs f hf)
  | var x n =>
    rw [TypeExpr.withBounds]
    cases hb : (Parameter.named? x parameters).bind (·.bound) with
    | none => exact everywhere_var
    | some b =>
      obtain ⟨p, hmem, hpb⟩ := bound_of_named? hb
      exact everywhere_bounded.mpr (hp p hmem b hpb)
  | bounded x b n _ => exact ht
  | fn ps r ihp ihr =>
    obtain ⟨hps, hr⟩ := everywhere_fn.mp ht
    rw [TypeExpr.withBounds, everywhere_fn, withBoundsEach_eq_map]
    refine ⟨?_, ihr hr⟩
    intro e he
    obtain ⟨f, hf, rfl⟩ := List.mem_map.mp he
    exact ihp f hf (hps f hf)

theorem names_withBoundsEach (parameters : List Parameter) (types : List (String × TypeExpr)) :
    (withBoundsEach parameters types).map (·.1) = types.map (·.1) := by
  rw [withBoundsEach_eq_map, List.map_map]
  rfl

theorem type?_withBoundsEach (parameters : List Parameter) (b : Bindings) (x : String) :
    Bindings.type? (withBoundsEach parameters b) x =
      (b.type? x).map (withBounds parameters) := by
  induction b with
  | nil => rfl
  | cons e rest ih =>
    rw [withBoundsEach, Bindings.type?_cons, Bindings.type?_cons, ih]
    split <;> rfl

/-- Equality does not see bounds. -/
theorem sameAs_withBounds {t : TypeExpr} (ht : t.Distinct) :
    t.sameAs (t.withBounds parameters) = true := by
  induction t with
  | inst d args n ih =>
    obtain ⟨hnames, hargs⟩ := everywhere_inst.mp ht
    refine sameAs_inst_iff.mpr ⟨rfl, Definition.sameAs_iff.mpr rfl, Bindings.sameAs_iff.mpr ⟨?_, ?_⟩⟩
    · rw [withBoundsEach_eq_map, List.length_map]
    · intro e he
      refine ⟨e.2.withBounds parameters, ?_, ih e he (hargs e he)⟩
      rw [type?_withBoundsEach, Bindings.type?_of_mem hnames he, Option.map_some]
  | var x n => simp [withBounds, sameAs]
  | bounded x b n _ => simp [withBounds, sameAs]
  | fn ps r ihp ihr =>
    obtain ⟨hps, hr⟩ := everywhere_fn.mp ht
    refine sameAs_fn_iff.mpr ⟨ihr hr, ?_⟩
    rw [withBoundsEach_eq_map, List.forall₂_map_right_iff]
    exact List.forall₂_same.mpr fun e he => ihp e he (hps e he)

/-- Attaching bounds brings in no variables but those of the bounds. -/
theorem references_withBounds {t : TypeExpr} {v : Variable}
    (hv : v ∈ (t.withBounds parameters).references) :
    (∃ w ∈ t.references, w.name = v.name) ∨
      ∃ p ∈ parameters, ∃ b, p.bound = some b ∧ v ∈ b.references := by
  induction t with
  | inst d args n ih =>
    rw [withBounds, references, referencesOfEach_eq_flatMap, withBoundsEach_eq_map,
      List.mem_flatMap] at hv
    obtain ⟨e, he, hv⟩ := hv
    obtain ⟨f, hf, rfl⟩ := List.mem_map.mp he
    rw [references, referencesOfEach_eq_flatMap]
    rcases ih f hf hv with ⟨w, hw, hwv⟩ | h
    · exact .inl ⟨w, List.mem_flatMap.mpr ⟨f, hf, hw⟩, hwv⟩
    · exact .inr h
  | var x n =>
    rw [withBounds] at hv
    cases hb : (Parameter.named? x parameters).bind (·.bound) with
    | none =>
      rw [hb] at hv
      exact .inl ⟨v, hv, rfl⟩
    | some b =>
      rw [hb, references] at hv
      rcases List.mem_cons.mp hv with rfl | hv
      · exact .inl ⟨⟨x, none, n⟩, by simp [references], rfl⟩
      · obtain ⟨p, hmem, hpb⟩ := bound_of_named? hb
        exact .inr ⟨p, hmem, b, hpb, hv⟩
  | bounded x b n _ => exact .inl ⟨v, hv, rfl⟩
  | fn ps r ihp ihr =>
    rw [withBounds, references, referencesOfEach_eq_flatMap, withBoundsEach_eq_map,
      List.mem_append, List.mem_flatMap] at hv
    simp only [references, referencesOfEach_eq_flatMap, List.mem_append, List.mem_flatMap]
    rcases hv with ⟨e, he, hv⟩ | hv
    · obtain ⟨f, hf, rfl⟩ := List.mem_map.mp he
      rcases ihp f hf hv with ⟨w, hw, hwv⟩ | h
      · exact .inl ⟨w, .inl ⟨f, hf, hw⟩, hwv⟩
      · exact .inr h
    · rcases ihr hv with ⟨w, hw, hwv⟩ | h
      · exact .inl ⟨w, .inr hw, hwv⟩
      · exact .inr h

end TypeExpr

/-! ## The body that a draft declares -/

namespace Draft

/-- The draft's declarations as they were made, before bounds are attached to properties. -/
def declared (draft : Draft) : Body where
  parent := draft.parent
  interfaces := draft.interfaces
  parameters := draft.parameters
  properties := draft.properties

variable {draft : Draft} {U V : Universe} {kind : Kind}

theorem scoped_of_checkVariables (h : draft.checkVariables = .ok ()) : draft.declared.Scoped := by
  intro t ht v hv
  unfold checkVariables at h
  split at h
  · cases h
  · next hnone =>
    have hv := List.find?_eq_none.mp hnone v (List.mem_flatMap.mpr ⟨t, ht, hv⟩)
    rwa [Bool.not_eq_true, Bool.not_eq_false'] at hv

theorem scoped_body (h : draft.declared.Scoped) : draft.body.Scoped := by
  intro t ht v hv
  rcases Body.mem_expressions_iff.mp ht with hp | ⟨p, hp, rfl⟩ | hi
  · exact h t (Body.mem_expressions_iff.mpr (.inl hp)) v hv
  · rw [body, TypeExpr.withBoundsEach_eq_map] at hp
    obtain ⟨q, hq, rfl⟩ := List.mem_map.mp hp
    rcases TypeExpr.references_withBounds hv with ⟨w, hw, hwv⟩ | ⟨p, hp, b, hb, hv⟩
    · have hq : q.2 ∈ draft.declared.expressions :=
        Body.mem_expressions_iff.mpr (.inr (.inl ⟨q, hq, rfl⟩))
      exact hwv ▸ h q.2 hq w hw
    · exact h b (Body.mem_expressions_iff.mpr (.inl ⟨p, hp, hb⟩)) v hv
  · exact h t (Body.mem_expressions_iff.mpr (.inr (.inr hi))) v hv

theorem allows_body (h : U.Allows kind draft.declared) : U.Allows kind draft.body where
  parent_kind := h.parent_kind
  interface_kind := h.interface_kind
  closed := h.closed
  supertypes := h.supertypes
  bounds := h.bounds
  properties p hp := by
    rw [body, TypeExpr.withBoundsEach_eq_map] at hp
    obtain ⟨q, hq, rfl⟩ := List.mem_map.mp hp
    exact (h.properties q hq).withBounds h.bounds

/-! ## Steps -/

section Steps

variable {changed : Draft}

theorem inherit_eq_ok {parent : Instance} (h : draft.inherit U parent = .ok changed) :
    draft.parent = none ∧ U.isClosed parent.definition = true ∧
      parent.definition.kind = draft.kind ∧ changed = { draft with parent := some parent } := by
  unfold inherit at h
  split at h
  · cases h
  · next hnone =>
    split at h
    · cases h
    · next hclosed =>
      split at h
      · cases h
      · next hkind =>
        cases h
        rw [Bool.not_eq_true, Bool.not_eq_false'] at hclosed
        exact ⟨hnone, hclosed, by simpa using hkind, rfl⟩

theorem implement_eq_ok {interface : Instance} (h : draft.implement U interface = .ok changed) :
    U.isClosed interface.definition = true ∧ interface.definition.isInterface = true ∧
      (∀ i ∈ draft.interfaces, i.definition.sameAs interface.definition = false) ∧
      changed = { draft with interfaces := draft.interfaces ++ [interface] } := by
  unfold implement at h
  split at h
  · cases h
  · next hclosed =>
    split at h
    · cases h
    · next hkind =>
      split at h
      · cases h
      · next hnew =>
        cases h
        rw [Bool.not_eq_true, Bool.not_eq_false'] at hclosed hkind
        exact ⟨hclosed, hkind, by simpa using hnew, rfl⟩

theorem addParameter_eq_ok {p : Parameter} (h : draft.addParameter p = .ok changed) :
    Parameter.declares draft.parameters p.name = false ∧
      changed = { draft with parameters := draft.parameters ++ [p] } := by
  unfold addParameter at h
  split at h
  · cases h
  · next hnew =>
    cases h
    exact ⟨Bool.eq_false_iff.mpr hnew, rfl⟩

theorem addProperty_eq_ok {name : String} {type : TypeExpr}
    (h : draft.addProperty name type = .ok changed) :
    canJoin draft.properties name type = true ∧
      changed = { draft with properties := draft.properties ++ [(name, type)] } := by
  unfold addProperty at h
  split at h
  · next hjoin =>
    cases h
    exact ⟨hjoin, rfl⟩
  · cases h

theorem refer_eq_ok {name : String} {type : TypeExpr} (h : draft.refer name = .ok type) :
    ∃ p ∈ draft.parameters, type = p.toExpr := by
  unfold refer at h
  split at h
  · next p hp =>
    cases h
    exact ⟨p, List.mem_of_find?_eq_some hp, rfl⟩
  · cases h

end Steps

/-! ## Closing -/

theorem construct_eq_ok {d : Definition} (h : draft.construct U = .ok (d, V)) :
    draft.checkVariables = .ok () ∧ draft.checkPackage = .ok () ∧
      draft.checkSelfReferences = .ok () ∧
      U.conform draft.settings.maxDepth draft.name draft.interfaces draft.body.properties = .ok () ∧
      d = (draft.reference U).1 ∧ (draft.reference U).2.2.close? d draft.body = some V := by
  unfold construct at h
  obtain ⟨_, hvariables, h⟩ := bind_eq_ok_iff.mp h
  obtain ⟨_, hpackage, h⟩ := bind_eq_ok_iff.mp h
  obtain ⟨_, hself, h⟩ := bind_eq_ok_iff.mp h
  obtain ⟨_, hconform, h⟩ := bind_eq_ok_iff.mp h
  refine ⟨hvariables, hpackage, hself, hconform, ?_⟩
  dsimp only at h
  split at h
  · next hclose =>
    cases h
    exact ⟨rfl, hclose⟩
  · cases h

end Draft

/-! ## Drafts of a session -/

namespace Universe

variable {U V : Universe} {draft changed : Draft}

/-- What has been declared so far can become the body, and an issued definition is the draft's. -/
structure AdmitsDraft (U : Universe) (draft : Draft) : Prop where
  allows : U.Allows draft.kind draft.declared
  issued : ∀ d, draft.issued = some d → d ∈ U.definitions ∧ d.kind = draft.kind

theorem Grows.admitsDraft (h : U.Grows V) (hd : U.AdmitsDraft draft) : V.AdmitsDraft draft where
  allows := h.allows hd.allows
  issued d hi := ⟨h.definitions d (hd.issued d hi).1, (hd.issued d hi).2⟩

/-- A reference to a parameter brings in no definitions but those of the bound. -/
theorem admits_parameter {p : Parameter} (h : ∀ t, p.bound = some t → U.Admits t) :
    U.Admits p.toExpr := by
  rw [Admits, Parameter.toExpr]
  cases hb : p.bound with
  | none => exact TypeExpr.everywhere_var
  | some b => exact TypeExpr.everywhere_bounded.mpr (h b hb)

namespace AdmitsDraft

theorem start (U : Universe) (name : String) (kind : Kind) :
    U.AdmitsDraft (Draft.start name kind) where
  allows := U.allows_empty kind
  issued _ h := by cases h

theorem inherit (h : U.AdmitsDraft draft) {parent : Instance} (hp : U.Admits parent.toExpr)
    (heq : draft.inherit U parent = .ok changed) : U.AdmitsDraft changed := by
  obtain ⟨_, hclosed, hkind, rfl⟩ := Draft.inherit_eq_ok heq
  have hsupertypes (i : Instance)
      (hi : i ∈ { draft with parent := some parent }.declared.supertypes) :
      i = parent ∨ i ∈ draft.declared.supertypes := by
    simp only [Body.supertypes, Draft.declared, Option.toList_some] at hi ⊢
    rcases List.mem_append.mp hi with hi | hi
    · exact .inl (List.mem_singleton.mp hi)
    · exact .inr (List.mem_append_right _ hi)
  have hkinds (i : Instance) (hi : some parent = some i) : i.definition.kind = draft.kind := by
    cases hi
    exact hkind
  obtain ⟨hclosed, hadmits⟩ := h.allows.add_supertype hclosed hp hsupertypes
  exact ⟨{ h.allows with parent_kind := hkinds, closed := hclosed, supertypes := hadmits },
    h.issued⟩

theorem implement (h : U.AdmitsDraft draft) {interface : Instance}
    (hp : U.Admits interface.toExpr) (heq : draft.implement U interface = .ok changed) :
    U.AdmitsDraft changed := by
  obtain ⟨hclosed, hkind, _, rfl⟩ := Draft.implement_eq_ok heq
  have hsupertypes (i : Instance)
      (hi : i ∈ { draft with
        interfaces := draft.interfaces ++ [interface] }.declared.supertypes) :
      i = interface ∨ i ∈ draft.declared.supertypes := by
    simp only [Body.supertypes, Draft.declared, ← List.append_assoc] at hi ⊢
    rcases List.mem_append.mp hi with hi | hi
    · exact .inr hi
    · exact .inl (List.mem_singleton.mp hi)
  have hkinds (i : Instance) (hi : i ∈ draft.interfaces ++ [interface]) :
      i.definition.isInterface = true := by
    rcases List.mem_append.mp hi with hi | hi
    · exact h.allows.interface_kind i hi
    · rwa [List.mem_singleton.mp hi]
  obtain ⟨hclosed, hadmits⟩ := h.allows.add_supertype hclosed hp hsupertypes
  exact ⟨{ h.allows with interface_kind := hkinds, closed := hclosed, supertypes := hadmits },
    h.issued⟩

theorem addParameter (h : U.AdmitsDraft draft) {p : Parameter}
    (hp : ∀ t, p.bound = some t → U.Admits t) (heq : draft.addParameter p = .ok changed) :
    U.AdmitsDraft changed := by
  obtain ⟨_, rfl⟩ := Draft.addParameter_eq_ok heq
  refine ⟨{ h.allows with bounds := ?_ }, h.issued⟩
  intro q hq
  rcases List.mem_append.mp hq with hq | hq
  · exact h.allows.bounds q hq
  · exact List.mem_singleton.mp hq ▸ hp

theorem addProperty (h : U.AdmitsDraft draft) {name : String} {type : TypeExpr}
    (ht : U.Admits type) (heq : draft.addProperty name type = .ok changed) :
    U.AdmitsDraft changed := by
  obtain ⟨_, rfl⟩ := Draft.addProperty_eq_ok heq
  refine ⟨{ h.allows with properties := ?_ }, h.issued⟩
  intro q hq
  rcases List.mem_append.mp hq with hq | hq
  · exact h.allows.properties q hq
  · exact List.mem_singleton.mp hq ▸ ht

theorem refer (h : U.AdmitsDraft draft) {name : String} {type : TypeExpr}
    (heq : draft.refer name = .ok type) : U.Admits type := by
  obtain ⟨p, hp, rfl⟩ := Draft.refer_eq_ok heq
  exact admits_parameter (h.allows.bounds p hp)

end AdmitsDraft

/-! ## Handing out and closing -/

/-- Handing out a definition leaves the body to come as it is, and settles who it is for. -/
theorem Coherent.reference (hU : U.Coherent) (h : U.AdmitsDraft draft) :
    (draft.reference U).2.2.Coherent ∧ U.Grows (draft.reference U).2.2 ∧
      (draft.reference U).2.2.AdmitsDraft (draft.reference U).2.1 ∧
      (draft.reference U).1 ∈ (draft.reference U).2.2.definitions ∧
      (draft.reference U).1.kind = draft.kind := by
  unfold Draft.reference
  split
  · next d hissued =>
    exact ⟨hU, .refl U, h, h.issued d hissued⟩
  · have hgrows := U.grows_declare ⟨draft.resolvedPackage, draft.name⟩ draft.kind
    have hmem := U.mem_definitions_declare ⟨draft.resolvedPackage, draft.name⟩ draft.kind
    refine ⟨hU.declare, hgrows, ⟨hgrows.allows h.allows, ?_⟩, hmem, rfl⟩
    rintro d ⟨⟩
    exact ⟨hmem, rfl⟩

theorem Coherent.construct (hU : U.Coherent) (h : U.AdmitsDraft draft) {d : Definition}
    (heq : draft.construct U = .ok (d, V)) : V.Coherent ∧ U.Grows V := by
  obtain ⟨hvariables, _, _, _, rfl, hclose⟩ := Draft.construct_eq_ok heq
  obtain ⟨hU', hgrows, _, hmem, hkind⟩ := hU.reference h
  have hallows := Draft.allows_body (hgrows.allows h.allows)
  have hscoped := Draft.scoped_body (Draft.scoped_of_checkVariables hvariables)
  refine ⟨hU'.close hmem (hkind ▸ hallows) hscoped hclose, ?_⟩
  exact hgrows.trans (hU'.grows_close hmem hclose)

end Universe

end NominalTypes
