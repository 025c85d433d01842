import NominalTypes.Proofs.Closing

/-!
# Well-scoped definitions

What a closed definition declares makes sense on its own, in whatever order it was declared and
though references to itself come before its parameters.

* `Session.Reachable.declared`: a condition that each step of a draft keeps holds of all drafts;
* `Body.Unrepeated`: no parameter and no interface stands twice, which each step of a draft checks;
* `Draft.bindsExactly_of_construct`: closing checks the instances that the definition has of itself,
  and the bounds that it attaches bring in no others;
* `Session.Reachable.exists_closing`: every body comes from a draft, closed in an earlier session;
* `Session.Reachable.wellScoped`: all that holds of a closed definition (`Universe.WellScoped`).
-/

namespace NominalTypes

/-! ## What the steps of a draft keep -/

/-- The condition holds where nothing is declared, and after each step if it held before. -/
structure Draft.Invariant (P : Body → Prop) : Prop where
  start : P {}
  inherit {U : Universe} {draft changed : Draft} {parent : Instance} :
    P draft.declared → draft.inherit U parent = .ok changed → P changed.declared
  implement {U : Universe} {draft changed : Draft} {interface : Instance} :
    P draft.declared → draft.implement U interface = .ok changed → P changed.declared
  addParameter {draft changed : Draft} {p : Parameter} :
    P draft.declared → draft.addParameter p = .ok changed → P changed.declared
  addProperty {draft changed : Draft} {name : String} {type : TypeExpr} :
    P draft.declared → draft.addProperty name type = .ok changed → P changed.declared

section Invariant

variable {P : Body → Prop} {lenient : Bool}

theorem Draft.Invariant.of_makes (hP : Draft.Invariant P) {U : Universe} {items : List Item}
    {draft : Draft} (hitems : ∀ x, .draft x ∈ items → P x.declared)
    (h : Makes lenient U items (.draft draft)) : P draft.declared := by
  cases h with
  | startDraft name kind => exact hP.start
  | configureDraft settings hd =>
    have hdeclared := hitems _ hd
    exact hdeclared
  | inPackage package hd =>
    have hdeclared := hitems _ hd
    exact hdeclared
  | inherit hd _ h => exact hP.inherit (hitems _ hd) h
  | implement hd _ h => exact hP.implement (hitems _ hd) h
  | addParameter hd h => exact hP.addParameter (hitems _ hd) h
  | addBoundedParameter hd _ h => exact hP.addParameter (hitems _ hd) h
  | addProperty hd _ h => exact hP.addProperty (hitems _ hd) h

/-- Handing out and closing leave drafts as they are, so an invariant holds of all drafts. -/
theorem Session.Reachable.declared {s : Session} (h : Reachable lenient s)
    (hP : Draft.Invariant P) : ∀ x, .draft x ∈ s.items → P x.declared := by
  induction h with
  | refl => exact fun x hx => absurd hx List.not_mem_nil
  | step _ hstep ih =>
    intro x hx
    cases hstep with
    | make hmakes =>
      rcases List.mem_cons.mp hx with rfl | hx
      · exact hP.of_makes ih hmakes
      · exact ih x hx
    | @reference draft hd =>
      rcases List.mem_cons.mp hx with heq | hx
      · cases heq
        rw [Draft.declared_reference]
        exact ih draft hd
      · exact ih x hx
    | construct _ _ => exact ih x hx

end Invariant

/-! ## Nothing twice -/

/-- Parameters differ by name, and interfaces by the name of their definition. -/
structure Body.Unrepeated (b : Body) : Prop where
  parameters : (b.parameters.map (·.name)).Nodup
  interfaces : b.interfaces.Pairwise fun i j => i.definition.sameAs j.definition = false

theorem Parameter.declares_iff {parameters : List Parameter} {x : String} :
    declares parameters x = true ↔ x ∈ parameters.map (·.name) := by
  simp [declares]

namespace Draft

variable {U : Universe} {draft changed : Draft}

theorem unrepeated_implement {interface : Instance} (hd : draft.declared.Unrepeated)
    (h : draft.implement U interface = .ok changed) : changed.declared.Unrepeated := by
  obtain ⟨_, _, hnew, rfl⟩ := implement_eq_ok h
  refine ⟨hd.parameters, List.pairwise_append.mpr ⟨hd.interfaces, List.pairwise_singleton _ _, ?_⟩⟩
  intro i hi j hj
  exact List.mem_singleton.mp hj ▸ hnew i hi

theorem unrepeated_addParameter {p : Parameter} (hd : draft.declared.Unrepeated)
    (h : draft.addParameter p = .ok changed) : changed.declared.Unrepeated := by
  obtain ⟨hnew, rfl⟩ := addParameter_eq_ok h
  have hnot : p.name ∉ draft.parameters.map (·.name) := by
    rw [← Parameter.declares_iff, hnew]
    exact Bool.false_ne_true
  refine ⟨?_, hd.interfaces⟩
  rw [declared, List.map_append, List.map_singleton, ← List.concat_eq_append, List.nodup_concat]
  exact ⟨hnot, hd.parameters⟩

end Draft

theorem Draft.unrepeated_invariant : Draft.Invariant Body.Unrepeated where
  start := ⟨List.nodup_nil, .nil⟩
  inherit hd h := by
    obtain ⟨_, _, _, rfl⟩ := Draft.inherit_eq_ok h
    exact ⟨hd.parameters, hd.interfaces⟩
  implement hd h := Draft.unrepeated_implement hd h
  addParameter hd h := Draft.unrepeated_addParameter hd h
  addProperty hd h := by
    obtain ⟨_, rfl⟩ := Draft.addProperty_eq_ok h
    exact ⟨hd.parameters, hd.interfaces⟩

theorem Session.Reachable.unrepeated {lenient : Bool} {s : Session} (h : Reachable lenient s) :
    ∀ x, .draft x ∈ s.items → x.declared.Unrepeated :=
  h.declared Draft.unrepeated_invariant

/-! ## References to itself -/

/-- An instance of `d` has one argument for each of the parameters, and no others. -/
def BindsExactly (d : Definition) (parameters : List Parameter) (e : Definition)
    (names : List String) : Prop :=
  e = d → names.Perm (parameters.map (·.name))

theorem Body.mem_supertypes_or_expression {b : Body} {t : TypeExpr} (ht : t ∈ b.types)
    {i : Instance} (hi : i ∈ t.instances) :
    i ∈ b.supertypes ∨ ∃ e ∈ b.expressions, i ∈ e.instances := by
  rw [types, List.mem_append] at ht
  rcases ht with ht | ht
  · exact .inr ⟨t, List.mem_append_left _ ht, hi⟩
  · obtain ⟨j, hj, rfl⟩ := List.mem_map.mp ht
    rw [Instance.toExpr, TypeExpr.instances, TypeExpr.instancesOfEach_eq_flatMap, List.mem_cons,
      List.mem_flatMap] at hi
    rcases hi with rfl | ⟨e, he, hi⟩
    · exact .inl hj
    · exact .inr ⟨e.2, mem_expressions_iff.mpr (.inr (.inr ⟨j, hj, e, he, rfl⟩)), hi⟩

namespace Draft

variable {U V : Universe} {draft : Draft} {d : Definition}

theorem perm_of_checkArguments {args : Bindings} (hp : (draft.parameters.map (·.name)).Nodup)
    (ha : (args.map (·.1)).Nodup) (h : draft.checkArguments args = .ok ()) :
    (args.map (·.1)).Perm (draft.parameters.map (·.name)) := by
  unfold checkArguments at h
  split at h
  · cases h
  · next hdeclared =>
    split at h
    · cases h
    · next hbound =>
      refine (List.perm_ext_iff_of_nodup ha hp).mpr fun x => ⟨fun hx => ?_, fun hx => ?_⟩
      · obtain ⟨a, ha, rfl⟩ := List.mem_map.mp hx
        exact Parameter.declares_iff.mp (by simpa using List.find?_eq_none.mp hdeclared a ha)
      · obtain ⟨p, hp, rfl⟩ := List.mem_map.mp hx
        exact Bindings.binds_iff.mp (by simpa using List.find?_eq_none.mp hbound p hp)

theorem checkArguments_of_checkSelfReferences (hd : draft.issued = some d)
    (h : draft.checkSelfReferences = .ok ()) {t : TypeExpr} (ht : t ∈ draft.declared.expressions)
    {i : Instance} (hi : i ∈ t.instances) (hid : i.definition = d) :
    draft.checkArguments i.args = .ok () := by
  have hmem : i ∈ (draft.expressions.flatMap (·.instances)).filter (·.definition.isIdentical d) :=
    List.mem_filter.mpr ⟨List.mem_flatMap.mpr ⟨t, ht, hi⟩, by simp [Definition.isIdentical, hid]⟩
  unfold checkSelfReferences at h
  rw [hd] at h
  exact forall_of_forM_eq_ok h i hmem

/-- A definition that was not handed out before is new. -/
theorem not_mem_of_construct (hU : U.Coherent) (hd : draft.issued = none)
    (h : draft.construct U = .ok (d, V)) : d ∉ U.definitions := by
  obtain ⟨_, _, _, _, rfl, _⟩ := construct_eq_ok h
  intro hmem
  obtain ⟨x, hx, _⟩ := hU.entry hmem
  have hlt := (Array.getElem?_eq_some_iff.mp hx).1
  rw [reference, hd] at hlt
  exact absurd hlt (Nat.lt_irrefl U.entries.size)

theorem bindsExactly_of_construct (hU : U.Coherent) (hd : U.AdmitsDraft draft)
    (hp : (draft.parameters.map (·.name)).Nodup) (h : draft.construct U = .ok (d, V))
    {t : TypeExpr} (ht : t ∈ draft.declared.types) :
    t.Everywhere (BindsExactly d draft.parameters) := by
  have hcloses := hU.closes_of_construct hd h
  have hadmits : U.Admits t := hd.allows.admits_of_mem_types ht
  intro i hi hid
  obtain ⟨hmem, hnodup⟩ := hadmits i hi
  rcases Body.mem_supertypes_or_expression ht hi with hsuper | ⟨e, he, hie⟩
  · have hclosed := hd.allows.closed i hsuper
    rw [hid, Universe.isClosed, hcloses.absent] at hclosed
    cases hclosed
  · cases hissued : draft.issued with
    | none => exact absurd (hid ▸ hmem) (not_mem_of_construct hU hissued h)
    | some d' =>
      obtain ⟨_, _, hself, _⟩ := construct_eq_ok h
      have hid' : i.definition = d' := hid.trans (hcloses.issued d' hissued).symm
      exact perm_of_checkArguments hp hnodup
        (checkArguments_of_checkSelfReferences hissued hself he hie hid')

end Draft

/-! ## Closed definitions -/

/-- Names do not repeat, supertypes are of the right kind, and at any depth of the types in the body,
bounds included, variables are parameters and instances of the definition itself bind each parameter
once and nothing else. -/
structure Universe.WellScoped (U : Universe) (d : Definition) : Prop where
  parameters : ((U.parameters d).map (·.name)).Nodup
  parent_kind : ∀ i, U.parent? d = some i → i.definition.kind = d.kind
  interface_kind : ∀ i ∈ U.interfaces d, i.definition.kind = .interfaceKind
  interfaces : (U.interfaces d).Pairwise fun i j => i.definition.sameAs j.definition = false
  references : ∀ t ∈ (U.body d).types, ∀ v ∈ t.references, v.name ∈ (U.parameters d).map (·.name)
  self : ∀ t ∈ (U.body d).types, ∀ i ∈ t.instances, i.definition = d →
    (i.args.map (·.1)).Perm ((U.parameters d).map (·.name))

theorem Definition.isInterface_iff {d : Definition} :
    d.isInterface = true ↔ d.kind = .interfaceKind := by
  rw [isInterface]
  cases d.kind <;> simp [Kind.isInterface]

namespace Session

variable {lenient : Bool} {s : Session}

/-- Every body was given by closing a draft. -/
theorem Reachable.exists_closing (h : Reachable lenient s) {d : Definition}
    (hd : d ∈ s.known.definitions) {b : Body} (hb : s.known.body? d = some b) :
    ∃ r draft V, Reachable lenient r ∧ .draft draft ∈ r.items ∧
      draft.construct r.known = .ok (d, V) ∧ draft.body = b := by
  induction h with
  | refl => exact absurd hd List.not_mem_nil
  | @step t u h hstep ih =>
    have ht := Reachable.wellFormed h
    have hu := ht.step hstep
    have hgrows := ht.grows hstep
    cases hbody : t.known.body? d with
    | some c =>
      obtain rfl : c = b := Option.some.inj ((hgrows.body? d c hbody).symm.trans hb)
      exact ih (hgrows.mem_of_body? ht.coherent hu.coherent hd hbody) hbody
    | none =>
      cases hstep with
      | make _ =>
        rw [hbody] at hb
        cases hb
      | @reference draft _ =>
        rw [Draft.body?_reference, hbody] at hb
        cases hb
      | @construct draft e V hdraft hconstruct =>
        have hcloses := ht.coherent.closes_of_construct (ht.items _ hdraft) hconstruct
        have hgiven := hcloses.body? d
        split at hgiven
        · next hid =>
          obtain rfl := hu.coherent.eq_of_id_eq hd hcloses.mem hid
          exact ⟨t, draft, V, h, hdraft, hconstruct, Option.some.inj (hgiven.symm.trans hb)⟩
        · rw [hbody, hb] at hgiven
          cases hgiven

theorem Reachable.wellScoped (h : Reachable lenient s) {d : Definition}
    (hd : d ∈ s.known.definitions) (hclosed : s.known.isClosed d = true) :
    s.known.WellScoped d := by
  have hU := h.wellFormed.coherent
  obtain ⟨b, hb⟩ := Option.isSome_iff_exists.mp hclosed
  obtain ⟨r, draft, V, hr, hdraft, hconstruct, rfl⟩ := h.exists_closing hd hb
  have hbody : s.known.body d = draft.body := Universe.body_of_body? hb
  have hparameters : s.known.parameters d = draft.parameters := congrArg (·.parameters) hbody
  have hinterfaces : s.known.interfaces d = draft.interfaces := congrArg (·.interfaces) hbody
  have hallows := hU.allows_body hd
  have hnames := hr.unrepeated draft hdraft
  refine ⟨?_, hallows.parent_kind, ?_, ?_, fun t ht v hv => ?_, fun t ht i hi hid => ?_⟩
  · rw [hparameters]
    exact hnames.parameters
  · exact fun i hi => Definition.isInterface_iff.mp (hallows.interface_kind i hi)
  · rw [hinterfaces]
    exact hnames.interfaces
  · exact Parameter.declares_iff.mp (hU.declares_of_mem_types ht hv)
  · have hdeclared (t : TypeExpr) (ht : t ∈ draft.declared.types) :=
      Draft.bindsExactly_of_construct hr.wellFormed.coherent (hr.wellFormed.items _ hdraft)
        hnames.parameters hconstruct ht
    rw [hbody] at ht
    rw [hparameters]
    exact Draft.everywhere_body hdeclared t ht i hi hid

end Session

/-! ## A class bounded by itself -/

namespace Chains

open Command

/-- A class `Base`, an interface `Marked`, and a class `Chain<T>` that extends the one and implements
the other, with `T` bounded by `Chain<T=T>`, which is made before `Chain` has parameters.  The `T` in
it, and in the property `item`, is one without a bound. -/
def commands : List Command := [
  startDraft "Base" .classKind, close 0, startInstantiation 0, construct 1,
  startDraft "Marked" .interfaceKind, close 3, startInstantiation 1, construct 4,
  startDraft "Other" .classKind, addParameter 6 "T", refer 7 "T",
  startDraft "Chain" .classKind, reference 9, startInstantiation 2, bind 11 "T" 8, construct 12,
  inherit 10 2, implement 14 5, addBoundedParameter 15 "T" 13, addProperty 16 "next" 13,
  addProperty 17 "item" 8, close 18]

def session : Session := (Session.replay? commands).getD {}

def chain : Definition := ⟨2, ⟨"default", "Chain"⟩, .classKind⟩

def unbounded : TypeExpr := .inst chain [("T", .var "T" none false)] false

def bounded : TypeExpr := .var "T" (some unbounded) false

theorem reachable : Session.Reachable true session := by
  have hsome : (Session.replay? commands).isSome = true := by decide +kernel
  exact Session.reachable_getD hsome fun _ => Session.reachable_of_replay?

theorem properties_chain : session.known.properties chain =
    [("next", .inst chain [("T", bounded)] false), ("item", bounded)] := by cbv

/-- `Chain` occurs in the bounds that closing has attached in its properties. -/
theorem chain_wellScoped :
    session.known.properties chain =
      [("next", .inst chain [("T", bounded)] false), ("item", bounded)] ∧
    session.known.WellScoped chain := by
  have hmem : chain ∈ session.known.definitions := by decide +kernel
  have hclosed : session.known.isClosed chain = true := by decide +kernel
  exact ⟨properties_chain, reachable.wellScoped hmem hclosed⟩

end Chains

end NominalTypes
