import NominalTypes.Proofs.Sessions

/-!
# What a session contains

A condition on all instances that a session mentions, in its items and in the bodies of its
definitions, is kept by every step, as long as it holds of the instances that a computation puts
together.

* `Session.All`: the condition, `Session.Computes` and `Session.Substitutes`: what has to be shown
  for it;
* `Session.All.item_of_makes`: whatever is made of things that meet it meets it, one case for each
  way of making something;
* `Session.All.step`: so does the session after a step;
* `Session.All.computes`, `Session.All.item_of_substitutes`: a condition on the names of arguments
  has to be shown for instantiation only.
-/

namespace NominalTypes

variable {P : Definition → Bindings → Prop}

/-! ## Conditions on all instances -/

/-- For a draft the condition is on what it has declared so far; an instantiation in preparation is
no instance yet. -/
def Item.All (P : Definition → Bindings → Prop) : Item → Prop
  | .draft x => ∀ t ∈ x.declared.types, t.All P
  | .instantiation x => ∀ e ∈ x.args, e.2.All P
  | .type x => x.All P
  | .bindings x => ∀ e ∈ x, e.2.All P

theorem Item.All.imp {Q : Definition → Bindings → Prop} {item : Item} (h : item.All P)
    (hPQ : ∀ d args, P d args → Q d args) : item.All Q := by
  cases item with
  | draft x => exact fun t ht => (h t ht).imp hPQ
  | instantiation x => exact fun e he => (h e he).imp hPQ
  | type x => exact TypeExpr.All.imp h hPQ
  | bindings x => exact fun e he => (h e he).imp hPQ

theorem Item.All.and {Q : Definition → Bindings → Prop} {item : Item} (h : item.All P)
    (h' : item.All Q) : item.All fun d args => P d args ∧ Q d args := by
  cases item with
  | draft x => exact fun t ht i hi => ⟨h t ht i hi, h' t ht i hi⟩
  | instantiation x => exact fun e he i hi => ⟨h e he i hi, h' e he i hi⟩
  | type x => exact fun i hi => ⟨h i hi, h' i hi⟩
  | bindings x => exact fun e he i hi => ⟨h e he i hi, h' e he i hi⟩

structure Session.All (s : Session) (P : Definition → Bindings → Prop) : Prop where
  bodies : ∀ d, ∀ t ∈ (s.known.body d).types, t.All P
  items : ∀ item ∈ s.items, item.All P

theorem Session.All.imp {s : Session} {Q : Definition → Bindings → Prop} (h : s.All P)
    (hPQ : ∀ d args, P d args → Q d args) : s.All Q :=
  ⟨fun d t ht => (h.bodies d t ht).imp hPQ, fun item hi => (h.items item hi).imp hPQ⟩

section Items

variable {s : Session}

theorem Session.All.draft (h : s.All P) {x : Draft} (hx : .draft x ∈ s.items) :
    ∀ t ∈ x.declared.types, t.All P := h.items _ hx

theorem Session.All.instantiation (h : s.All P) {x : Instantiation}
    (hx : .instantiation x ∈ s.items) : ∀ e ∈ x.args, e.2.All P := h.items _ hx

theorem Session.All.type (h : s.All P) {t : TypeExpr} (ht : .type t ∈ s.items) : t.All P :=
  h.items _ ht

theorem Session.All.bindings (h : s.All P) {b : Bindings} (hb : .bindings b ∈ s.items) :
    ∀ e ∈ b, e.2.All P := h.items _ hb

end Items

/-- Made by substituting bindings that the caller chose. -/
inductive Session.Substitutes (s : Session) : Item → Prop where
  | type {t r : TypeExpr} {b : Bindings} : .type t ∈ s.items → .bindings b ∈ s.items →
    t.substitute b = .ok r → Substitutes s (.type r)
  | remap {b outer c : Bindings} : .bindings b ∈ s.items → .bindings outer ∈ s.items →
    b.remap outer = .ok c → Substitutes s (.bindings c)
  | found {limit : Nat} {name : String} {d : Definition} {b : Bindings} {found : Found} :
    .bindings b ∈ s.items → s.known.find limit name ⟨d, b, false⟩ = .ok (some found) →
    Substitutes s (.type found.type)

/-- The condition holds of every instance that is put together in the session in other ways: by
instantiation, by a query on a type, or where closing a draft attaches bounds. -/
structure Session.Computes (s : Session) (lenient : Bool) (P : Definition → Bindings → Prop) :
    Prop where
  construct : ∀ i made, .instantiation i ∈ s.items →
    (lenient = true ∨ s.known.isClosed i.definition = true) → i.construct s.known = .ok made →
    P i.definition i.args
  property : ∀ t on nodes top p type, .type t ∈ s.items → on ∈ t.instances →
    Route s.known.ParentHop on nodes top → p ∈ s.known.properties top.definition →
    p.2.substitute top.args = .ok type → type.All P
  attached : ∀ draft, .draft draft ∈ s.items → ∀ p ∈ draft.body.properties, p.2.All P

theorem all_ofEntries {entries : List (String × TypeExpr)} (h : ∀ e ∈ entries, e.2.All P) :
    ∀ e ∈ Bindings.ofEntries entries, e.2.All P := by
  have hfold (entries : List (String × TypeExpr)) (h : ∀ e ∈ entries, e.2.All P) (b : Bindings)
      (hb : ∀ e ∈ b, e.2.All P) :
      ∀ e ∈ entries.foldl (fun b e => Bindings.set e.1 e.2 b) b, e.2.All P := by
    induction entries generalizing b with
    | nil => exact hb
    | cons f rest ih =>
      obtain ⟨hf, hrest⟩ := List.forall_mem_cons.mp h
      refine ih hrest _ fun e he => ?_
      rcases Bindings.mem_set he with he | he
      · exact hb e he
      · exact he ▸ hf
  exact hfold entries h [] fun e he => absurd he List.not_mem_nil

theorem Parameter.all_toExpr {p : Parameter} (h : ∀ t, p.bound = some t → t.All P) :
    p.toExpr.All P := by
  rw [Parameter.toExpr]
  cases hb : p.bound with
  | none => exact TypeExpr.all_var
  | some b => exact TypeExpr.all_bounded.mpr (h b hb)

/-! ## Drafts -/

section Drafts

variable {U : Universe} {draft changed : Draft} {t : TypeExpr}

theorem Draft.mem_types_inherit {parent : Instance} (h : draft.inherit U parent = .ok changed)
    (ht : t ∈ changed.declared.types) : t = parent.toExpr ∨ t ∈ draft.declared.types := by
  obtain ⟨_, _, _, rfl⟩ := inherit_eq_ok h
  rw [Body.mem_types_iff] at ht ⊢
  rcases ht with hp | hp | ⟨i, hi, rfl⟩
  · exact .inr (.inl hp)
  · exact .inr (.inr (.inl hp))
  · simp only [Body.supertypes, declared, Option.toList_some, List.mem_append,
      List.mem_singleton] at hi ⊢
    rcases hi with rfl | hi
    · exact .inl rfl
    · exact .inr (.inr (.inr ⟨i, .inr hi, rfl⟩))

theorem Draft.mem_types_implement {interface : Instance}
    (h : draft.implement U interface = .ok changed) (ht : t ∈ changed.declared.types) :
    t = interface.toExpr ∨ t ∈ draft.declared.types := by
  obtain ⟨_, _, _, rfl⟩ := implement_eq_ok h
  rw [Body.mem_types_iff] at ht ⊢
  rcases ht with hp | hp | ⟨i, hi, rfl⟩
  · exact .inr (.inl hp)
  · exact .inr (.inr (.inl hp))
  · simp only [Body.supertypes, declared, List.mem_append, List.mem_singleton] at hi ⊢
    rcases hi with hi | hi | rfl
    · exact .inr (.inr (.inr ⟨i, .inl hi, rfl⟩))
    · exact .inr (.inr (.inr ⟨i, .inr hi, rfl⟩))
    · exact .inl rfl

theorem Draft.mem_types_addParameter {p : Parameter} (h : draft.addParameter p = .ok changed)
    (ht : t ∈ changed.declared.types) : p.bound = some t ∨ t ∈ draft.declared.types := by
  obtain ⟨_, rfl⟩ := addParameter_eq_ok h
  rw [Body.mem_types_iff] at ht ⊢
  rcases ht with ⟨q, hq, hqt⟩ | ht
  · rcases List.mem_append.mp hq with hq | hq
    · exact .inr (.inl ⟨q, hq, hqt⟩)
    · exact .inl (List.mem_singleton.mp hq ▸ hqt)
  · exact .inr (.inr ht)

theorem Draft.mem_types_addProperty {name : String} {type : TypeExpr}
    (h : draft.addProperty name type = .ok changed) (ht : t ∈ changed.declared.types) :
    t = type ∨ t ∈ draft.declared.types := by
  obtain ⟨_, rfl⟩ := addProperty_eq_ok h
  rw [Body.mem_types_iff] at ht ⊢
  rcases ht with hp | ⟨q, hq, rfl⟩ | hi
  · exact .inr (.inl hp)
  · rcases List.mem_append.mp hq with hq | hq
    · exact .inr (.inr (.inl ⟨q, hq, rfl⟩))
    · exact .inl (by rw [List.mem_singleton.mp hq])
  · exact .inr (.inr (.inr hi))

theorem Draft.refer_all (hd : ∀ t ∈ draft.declared.types, t.All P) {name : String}
    (h : draft.refer name = .ok t) : t.All P := by
  obtain ⟨p, hp, rfl⟩ := refer_eq_ok h
  exact Parameter.all_toExpr fun b hb => hd b (Body.mem_types_iff.mpr (.inl ⟨p, hp, hb⟩))

/-- Closing changes the types of properties only. -/
theorem Draft.body_all (hd : ∀ t ∈ draft.declared.types, t.All P)
    (hp : ∀ p ∈ draft.body.properties, p.2.All P) : ∀ t ∈ draft.body.types, t.All P := by
  intro t ht
  rcases Body.mem_types_iff.mp ht with hbound | ⟨p, hmem, rfl⟩ | hi
  · exact hd t (Body.mem_types_iff.mpr (.inl hbound))
  · exact hp p hmem
  · exact hd t (Body.mem_types_iff.mpr (.inr (.inr hi)))

/-- The bounds that closing attaches are declared too. -/
theorem Draft.everywhere_attached {Q : Definition → List String → Prop}
    (hd : ∀ t ∈ draft.declared.types, t.Everywhere Q) :
    ∀ p ∈ draft.body.properties, p.2.Everywhere Q := by
  intro p hp
  rw [body, TypeExpr.withBoundsEach_eq_map] at hp
  obtain ⟨q, hq, rfl⟩ := List.mem_map.mp hp
  refine (hd _ (Body.property_mem_types hq)).withBounds ?_
  exact fun x hx b hb => hd b (Body.mem_types_iff.mpr (.inl ⟨x, hx, hb⟩))

theorem Draft.everywhere_body {Q : Definition → List String → Prop}
    (hd : ∀ t ∈ draft.declared.types, t.Everywhere Q) :
    ∀ t ∈ draft.body.types, t.Everywhere Q :=
  body_all (P := fun d args => Q d (args.map (·.1))) hd (everywhere_attached hd)

theorem Draft.declared_reference (draft : Draft) (U : Universe) :
    (draft.reference U).2.1.declared = draft.declared := by
  unfold reference
  split <;> rfl

theorem Draft.body?_reference (draft : Draft) (U : Universe) (d : Definition) :
    (draft.reference U).2.2.body? d = U.body? d := by
  unfold reference
  split
  · rfl
  · exact U.body?_declare _ _ d

theorem Draft.body_reference (draft : Draft) (U : Universe) (d : Definition) :
    (draft.reference U).2.2.body d = U.body d :=
  congrArg (·.getD {}) (draft.body?_reference U d)

/-- Closing a draft gives its body to one definition, which was open before. -/
theorem Universe.Coherent.body?_of_construct {V : Universe} {d : Definition} (hU : U.Coherent)
    (hd : U.AdmitsDraft draft) (h : draft.construct U = .ok (d, V)) :
    U.isClosed d = false ∧ ∀ e, V.body? e = if e.id = d.id then some draft.body else U.body? e := by
  obtain ⟨_, _, _, _, rfl, hclose⟩ := Draft.construct_eq_ok h
  obtain ⟨hU', _, _, hmem, _⟩ := hU.reference hd
  constructor
  · have hopen := isClosed_of_close? hclose
    rwa [isClosed, Draft.body?_reference, ← isClosed] at hopen
  · intro e
    rw [hU'.body?_of_close? hmem hclose e, Draft.body?_reference]

theorem Universe.Coherent.body_of_construct {V : Universe} {d : Definition} (hU : U.Coherent)
    (hd : U.AdmitsDraft draft) (h : draft.construct U = .ok (d, V)) (e : Definition) :
    V.body e = draft.body ∨ V.body e = U.body e := by
  have hbody := (hU.body?_of_construct hd h).2 e
  split at hbody
  · exact .inl (body_of_body? hbody)
  · exact .inr (congrArg (·.getD {}) hbody)

end Drafts

namespace Session

variable {lenient : Bool} {s t : Session}

/-! ## One thing made -/

theorem All.item_of_makes (hs : s.All P) (hc : s.Computes lenient P) {item : Item}
    (hsub : s.Substitutes item → item.All P) (h : Makes lenient s.known s.items item) :
    item.All P := by
  have add {b c : Bindings} {x : String} {t : TypeExpr} (hb : ∀ e ∈ b, e.2.All P) (ht : t.All P)
      (h : b.add x t = .ok c) : ∀ e ∈ c, e.2.All P := by
    obtain ⟨_, rfl⟩ := Bindings.add_eq_ok_iff.mp h
    exact List.forall_mem_append.mpr ⟨hb, List.forall_mem_singleton.mpr ht⟩
  cases h with
  | startDraft name kind => exact fun t ht => absurd ht List.not_mem_nil
  | configureDraft settings hd =>
    have hdeclared := hs.draft hd
    exact hdeclared
  | inPackage package hd =>
    have hdeclared := hs.draft hd
    exact hdeclared
  | inherit hd hp h =>
    intro t ht
    rcases Draft.mem_types_inherit h ht with rfl | ht
    · exact hs.type hp
    · exact hs.draft hd t ht
  | implement hd hi h =>
    intro t ht
    rcases Draft.mem_types_implement h ht with rfl | ht
    · exact hs.type hi
    · exact hs.draft hd t ht
  | addParameter hd h =>
    intro t ht
    rcases Draft.mem_types_addParameter h ht with ht | ht
    · cases ht
    · exact hs.draft hd t ht
  | addBoundedParameter hd hb h =>
    intro t ht
    rcases Draft.mem_types_addParameter h ht with ht | ht
    · cases ht
      exact hs.type hb
    · exact hs.draft hd t ht
  | addProperty hd hp h =>
    intro t ht
    rcases Draft.mem_types_addProperty h ht with rfl | ht
    · exact hs.type hp
    · exact hs.draft hd t ht
  | refer hd h => exact Draft.refer_all (hs.draft hd) h
  | startInstantiation _ => exact fun e he => absurd he List.not_mem_nil
  | configureInstantiation settings hi =>
    have hargs := hs.instantiation hi
    exact hargs
  | bind hi ht h =>
    obtain ⟨args, hargs, h⟩ := bind_eq_ok_iff.mp h
    cases h
    exact add (hs.instantiation hi) (hs.type ht) hargs
  | nullableInstantiation hi =>
    have hargs := hs.instantiation hi
    exact hargs
  | @construct i made hi hclosed h =>
    obtain ⟨_, _, rfl⟩ := Instantiation.construct_eq_ok h
    exact TypeExpr.all_inst.mpr ⟨hc.construct i _ hi hclosed h, hs.instantiation hi⟩
  | var name => exact TypeExpr.all_var
  | boundedVar name hb => exact TypeExpr.all_bounded.mpr (hs.type hb)
  | fn hps hr => exact TypeExpr.all_fn.mpr ⟨fun p hp => hs.type (hps p hp), hs.type hr⟩
  | nullable ht => exact TypeExpr.all_toNullable.mpr (hs.type ht)
  | substitute ht hb h => exact hsub (.type ht hb h)
  | @bound v t hv hb =>
    have hv := hs.type hv
    rw [Variable.toExpr, hb] at hv
    exact TypeExpr.all_bounded.mp hv
  | param hf hp => exact (TypeExpr.all_fn.mp (hs.type hf)).1 _ hp
  | result hf => exact (TypeExpr.all_fn.mp (hs.type hf)).2
  | @reference d name t _ h =>
    obtain ⟨p, hp, rfl⟩ := Option.map_eq_some_iff.mp h
    have hmem : p ∈ s.known.parameters d := List.mem_of_find?_eq_some hp
    exact Parameter.all_toExpr fun b hb =>
      hs.bodies d b (Body.mem_types_iff.mpr (.inl ⟨p, hmem, hb⟩))
  | supertype _ hi =>
    exact hs.bodies _ _ (Body.supertype_mem_types (Universe.mem_supertypes_iff.mpr hi))
  | property _ hp => exact hs.bodies _ _ (Body.property_mem_types hp)
  | found _ hb h => exact hsub (.found hb h)
  | foundIn ht h =>
    obtain ⟨i, hi, hfind⟩ := Universe.findIn_eq_some h
    obtain ⟨nodes, top, _, hroute, hown, hsub, _⟩ := Universe.route_of_findFrom_eq_some hfind
    have hp := List.mem_of_getElem? (getElem?_of_firstNamed? hown)
    exact hc.property _ i nodes top _ _ ht hi hroute hp hsub
  | @listed limit i ps p hi h hp =>
    obtain ⟨nodes, top, hroute, q, hq, _, hsub⟩ := Universe.route_of_mem_listFrom h hp
    exact hc.property _ i nodes top q _ hi List.mem_cons_self hroute hq hsub
  | addBinding hb ht h => exact add (hs.bindings hb) (hs.type ht) h
  | ofEntries he => exact all_ofEntries fun e h => hs.type (he e h)
  | args hi => exact (TypeExpr.all_inst.mp (hs.type hi)).2
  | remap hb ho h => exact hsub (.remap hb ho h)
  | resolve hb h =>
    unfold Bindings.resolve at h
    split at h
    · next ht =>
      cases h
      exact hs.bindings hb _ (Bindings.mem_of_type? ht)
    · cases h

/-! ## One step -/

theorem All.step (hw : s.WellFormed) (hs : s.All P) (hc : s.Computes lenient P)
    (hsub : ∀ item, t.items = item :: s.items → s.Substitutes item → item.All P)
    (h : Step lenient s t) : t.All P := by
  cases h with
  | make hmakes =>
    refine ⟨hs.bodies, List.forall_mem_cons.mpr ⟨?_, hs.items⟩⟩
    exact hs.item_of_makes hc (hsub _ rfl) hmakes
  | @reference draft hd =>
    refine ⟨fun d => ?_, List.forall_mem_cons.mpr ⟨?_, hs.items⟩⟩
    · rw [Draft.body_reference]
      exact hs.bodies d
    · have hdeclared := hs.draft hd
      rw [Item.All, Draft.declared_reference]
      exact hdeclared
  | @construct draft d U hd hconstruct =>
    refine ⟨fun e => ?_, hs.items⟩
    rcases hw.coherent.body_of_construct (hw.items _ hd) hconstruct e with he | he
    · rw [he]
      exact Draft.body_all (hs.draft hd) (hc.attached draft hd)
    · rw [he]
      exact hs.bodies e

/-! ## Conditions on names -/

section Names

variable {Q : Definition → List String → Prop}

theorem All.args_of_parent (hs : s.All fun d args => Q d (args.map (·.1))) {d : Definition}
    {i : Instance} (hi : s.known.parent? d = some i) : ∀ e ∈ i.args, e.2.Everywhere Q := by
  have hsuper := Universe.mem_supertypes_iff.mpr (.inl hi)
  exact (TypeExpr.everywhere_inst.mp (hs.bodies d _ (Body.supertype_mem_types hsuper))).2

/-- Substitution changes no names. -/
theorem All.item_of_substitutes (hs : s.All fun d args => Q d (args.map (·.1))) {item : Item}
    (h : s.Substitutes item) : item.All fun d args => Q d (args.map (·.1)) := by
  cases h with
  | type ht hb h => exact TypeExpr.Everywhere.substitute (hs.type ht) (hs.bindings hb) h
  | remap hb ho h => exact Bindings.everywhere_remap (hs.bindings hb) (hs.bindings ho) h
  | @found limit name d b _ hb h =>
    have hargs : ∀ e ∈ (⟨d, b, false⟩ : Instance).args, e.2.Everywhere Q := hs.bindings hb
    exact Universe.everywhere_findFrom (fun d _ hp => hs.bodies d _ (Body.property_mem_types hp))
      (fun _ _ hi => hs.args_of_parent hi) hargs h

theorem All.computes (hs : s.All fun d args => Q d (args.map (·.1)))
    (hconstruct : ∀ i made, .instantiation i ∈ s.items →
      (lenient = true ∨ s.known.isClosed i.definition = true) → i.construct s.known = .ok made →
      Q i.definition (i.args.map (·.1))) :
    s.Computes lenient fun d args => Q d (args.map (·.1)) where
  construct := hconstruct
  property t on nodes top p type ht hon hroute hp h := by
    have hargs := (TypeExpr.all_inst.mp ((hs.type ht).of_mem_instances hon)).2
    exact Universe.everywhere_property (fun d _ hp => hs.bodies d _ (Body.property_mem_types hp))
      (fun _ _ hi => hs.args_of_parent hi) hargs hroute hp h
  attached draft hd := Draft.everywhere_attached (hs.draft hd)

end Names

end Session

end NominalTypes
