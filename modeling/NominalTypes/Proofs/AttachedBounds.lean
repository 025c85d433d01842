import NominalTypes.Proofs.Closing

/-!
# Attached bounds

Closing a definition rewrites the types of its properties.  All that comes of it is that references
without a bound get one.

* `TypeExpr.withoutBounds`: what is left of a type when bounds are not looked at;
* `Variable.attach`: the reference that a reference becomes;
* `TypeExpr.withoutBounds_withBounds`, `TypeExpr.occurrences_withBounds`: between them they settle the
  rewritten type, which `TypeExpr.withBounds_withBounds` leaves as it is;
* `Session.Reachable.attached_of_construct`: so it is with each property of a closed definition.
-/

namespace NominalTypes

/-- The reference with its own bound, or else the bound of its parameter. -/
def Variable.attach (parameters : List Parameter) (v : Variable) : Variable :=
  { v with bound := v.bound.or ((Parameter.named? v.name parameters).bind (·.bound)) }

theorem Parameter.exists_named? {parameters : List Parameter} {x : String}
    (h : declares parameters x = true) : ∃ p, named? x parameters = some p := by
  rw [← Option.isSome_iff_exists, named?, List.find?_isSome]
  exact List.any_eq_true.mp h

namespace TypeExpr

mutual

/-- The type with the bounds of all variables taken away. -/
def withoutBounds : TypeExpr → TypeExpr
  | inst d args nullable => .inst d (withoutBoundsEach args) nullable
  | var name _ nullable => .var name none nullable
  | fn params result => .fn (withoutBoundsEach params) result.withoutBounds

def withoutBoundsEach : List (String × TypeExpr) → List (String × TypeExpr)
  | [] => []
  | (name, t) :: rest => (name, t.withoutBounds) :: withoutBoundsEach rest

end

theorem withoutBoundsEach_eq_map (types : List (String × TypeExpr)) :
    withoutBoundsEach types = types.map fun e => (e.1, e.2.withoutBounds) := by
  induction types with
  | nil => rfl
  | cons e rest ih => rw [withoutBoundsEach, ih, List.map_cons]

/-! ## One type -/

variable {parameters : List Parameter} {t : TypeExpr}

/-- Definitions, names, orders and nullability stay as they are, at every depth. -/
theorem withoutBounds_withBounds (parameters : List Parameter) (t : TypeExpr) :
    (t.withBounds parameters).withoutBounds = t.withoutBounds := by
  have heach {types : List (String × TypeExpr)}
      (ih : ∀ e ∈ types, (e.2.withBounds parameters).withoutBounds = e.2.withoutBounds) :
      withoutBoundsEach (withBoundsEach parameters types) = withoutBoundsEach types := by
    rw [withoutBoundsEach_eq_map, withoutBoundsEach_eq_map, withBoundsEach_eq_map, List.map_map]
    apply List.map_congr_left
    intro e he
    show (e.1, (e.2.withBounds parameters).withoutBounds) = (e.1, e.2.withoutBounds)
    rw [ih e he]
  induction t with
  | inst d args n ih => rw [withBounds, withoutBounds, withoutBounds, heach ih]
  | var x n => rw [withBounds, withoutBounds, withoutBounds]
  | bounded x b n _ => rw [withBounds]
  | fn ps r ihp ihr => rw [withBounds, withoutBounds, withoutBounds, heach ihp, ihr]

theorem occurrences_withBounds (parameters : List Parameter) (t : TypeExpr) :
    (t.withBounds parameters).occurrences = t.occurrences.map (Variable.attach parameters) := by
  have heach {types : List (String × TypeExpr)}
      (ih : ∀ e ∈ types, (e.2.withBounds parameters).occurrences =
        e.2.occurrences.map (Variable.attach parameters)) :
      occurrencesOfEach (withBoundsEach parameters types) =
        (occurrencesOfEach types).map (Variable.attach parameters) := by
    rw [occurrencesOfEach_eq_flatMap, occurrencesOfEach_eq_flatMap, withBoundsEach_eq_map,
      List.flatMap_map, List.map_flatMap]
    exact List.flatMap_congr ih
  induction t with
  | inst d args n ih => rw [withBounds, occurrences, occurrences, heach ih]
  | var x n => simp [withBounds, occurrences, Variable.attach]
  | bounded x b n _ => simp [withBounds, occurrences, Variable.attach]
  | fn ps r ihp ihr =>
    rw [withBounds, occurrences, occurrences, heach ihp, ihr, List.map_append]

/-- A second time there is nothing left to attach: a bound that was attached may mention references
without bounds, but is not entered. -/
theorem withBounds_withBounds (parameters : List Parameter) (t : TypeExpr) :
    (t.withBounds parameters).withBounds parameters = t.withBounds parameters := by
  have heach {types : List (String × TypeExpr)}
      (ih : ∀ e ∈ types, (e.2.withBounds parameters).withBounds parameters =
        e.2.withBounds parameters) :
      withBoundsEach parameters (withBoundsEach parameters types) =
        withBoundsEach parameters types := by
    rw [withBoundsEach_eq_map, withBoundsEach_eq_map, List.map_map]
    apply List.map_congr_left
    intro e he
    show (e.1, (e.2.withBounds parameters).withBounds parameters) = (e.1, e.2.withBounds parameters)
    rw [ih e he]
  induction t with
  | inst d args n ih => rw [withBounds, withBounds, heach ih]
  | var x n =>
    rw [withBounds]
    cases hb : (Parameter.named? x parameters).bind (·.bound) with
    | none => rw [withBounds, hb]
    | some b => rw [withBounds]
  | bounded x b n _ => rw [withBounds, withBounds]
  | fn ps r ihp ihr => rw [withBounds, withBounds, heach ihp, ihr]

theorem findIn_withBounds (U : Universe) (limit : Nat) (name x : String) (n : Bool) :
    U.findIn limit name ((var x none n).withBounds parameters) =
      match (Parameter.named? x parameters).bind (·.bound) with
      | some b => U.findIn limit name b
      | none => .ok none := by
  rw [withBounds]
  cases (Parameter.named? x parameters).bind (·.bound) with
  | none => rfl
  | some b => rfl

end TypeExpr

/-! ## What attaching bounds comes to -/

/-- The same reference, but for the bound of its parameter where it has none of its own. -/
structure Variable.Attached (parameters : List Parameter) (v w : Variable) : Prop where
  name : w.name = v.name
  nullable : w.nullable = v.nullable
  bound : ∃ p, Parameter.named? v.name parameters = some p ∧ w.bound = v.bound.or p.bound

/-- The same type, but for bounds of references that are not part of a bound.  A property is looked
up on a reference without a bound as on the bound that it gets. -/
structure TypeExpr.Attached (parameters : List Parameter) (t u : TypeExpr) : Prop where
  sameAs : u.sameAs t = true
  shape : u.withoutBounds = t.withoutBounds
  occurrences : List.Forall₂ (Variable.Attached parameters) t.occurrences u.occurrences
  settled : u.withBounds parameters = u
  lookup : ∀ x n, t = .var x none n → ∃ p, Parameter.named? x parameters = some p ∧
    (∀ b, p.bound = some b → ∀ (U : Universe) (limit : Nat) (name : String),
      U.findIn limit name u = U.findIn limit name b) ∧
    (p.bound = none → ∀ (U : Universe) (limit : Nat) (name : String),
      U.findIn limit name u = .ok none)

section Attached

variable {parameters : List Parameter}

theorem Variable.attached_attach {v : Variable}
    (hv : Parameter.declares parameters v.name = true) :
    v.Attached parameters (v.attach parameters) := by
  obtain ⟨p, hp⟩ := Parameter.exists_named? hv
  refine ⟨rfl, rfl, p, hp, ?_⟩
  rw [attach, hp, Option.bind_some]

theorem TypeExpr.attached_withBounds {t : TypeExpr} (ht : t.Distinct)
    (hp : ∀ p ∈ parameters, ∀ b, p.bound = some b → b.Distinct)
    (hv : ∀ v ∈ t.occurrences, Parameter.declares parameters v.name = true) :
    t.Attached parameters (t.withBounds parameters) where
  sameAs := sameAs_symm ht (Everywhere.withBounds ht hp) (sameAs_withBounds ht)
  shape := withoutBounds_withBounds parameters t
  occurrences := by
    rw [occurrences_withBounds, List.forall₂_map_right_iff]
    exact List.forall₂_same.mpr fun v hmem => Variable.attached_attach (hv v hmem)
  settled := withBounds_withBounds parameters t
  lookup x n h := by
    subst h
    have hdeclared := hv ⟨x, none, n⟩ (by simp [TypeExpr.occurrences])
    obtain ⟨p, hnamed⟩ := Parameter.exists_named? hdeclared
    refine ⟨p, hnamed, fun b hb U limit name => ?_, fun hb U limit name => ?_⟩
    · rw [findIn_withBounds, hnamed, Option.bind_some, hb]
    · rw [findIn_withBounds, hnamed, Option.bind_some, hb]

end Attached

/-! ## Closed definitions -/

/-- The closed definition has the properties of the draft, in its order, with bounds attached to
their types and with no other change. -/
theorem Session.Reachable.attached_of_construct {lenient : Bool} {S : Session}
    (h : Reachable lenient S) {draft : Draft} {d : Definition} {V : Universe}
    (hd : .draft draft ∈ S.items) (hc : draft.construct S.known = .ok (d, V)) :
    V.parameters d = draft.parameters ∧
      List.Forall₂ (fun p q => q.1 = p.1 ∧ p.2.Attached draft.parameters q.2)
        draft.properties (V.properties d) := by
  have hadmits := h.wellFormed.items (.draft draft) hd
  have hcloses := h.wellFormed.coherent.closes_of_construct hadmits hc
  have hbody : V.body d = draft.body := Universe.body_of_body? hcloses.closed
  have hproperties : V.properties d = draft.body.properties := congrArg (·.properties) hbody
  obtain ⟨hvariables, _⟩ := Draft.construct_eq_ok hc
  have hscoped := Draft.scoped_of_checkVariables hvariables
  refine ⟨congrArg (·.parameters) hbody, ?_⟩
  rw [hproperties, Draft.body, TypeExpr.withBoundsEach_eq_map, List.forall₂_map_right_iff,
    List.forall₂_same]
  intro p hp
  refine ⟨rfl, TypeExpr.attached_withBounds (hadmits.allows.properties p hp).distinct ?_ ?_⟩
  · exact fun q hq b hb => (hadmits.allows.bounds q hq b hb).distinct
  · have hmem : p.2 ∈ draft.declared.expressions :=
      Body.mem_expressions_iff.mpr (.inr (.inl ⟨p, hp, rfl⟩))
    exact fun v hv => hscoped p.2 hmem v (p.2.occurrences_subset_references hv)

/-! ## References with and without bounds -/

namespace Envelopes

open Command

/-- A class `Text` with a property `length`, a class `Box<E>`, and a draft of `Envelope<T: Text, U>`.
Its properties mention a `T` and a `U` without bounds, in `make` as an argument and in the result, and
a `T` with the bound `Int`. -/
def commands : List Command := [
  startDraft "Int" .classKind, close 0, startInstantiation 0, construct 1,
  startDraft "Text" .classKind, addProperty 3 "length" 2, close 4, startInstantiation 1, construct 5,
  startDraft "Box" .classKind, addParameter 7 "E", close 8,
  startDraft "Other" .classKind, addParameter 9 "T", addParameter 10 "U", refer 11 "T",
  refer 11 "U", nullable 12, startInstantiation 2, bind 15 "E" 12, construct 16,
  startDraft "Other" .classKind, addBoundedParameter 18 "T" 2, refer 19 "T",
  fn [("x", 17), ("y", 20)] 13,
  startDraft "Envelope" .classKind, addBoundedParameter 22 "T" 6, addParameter 23 "U",
  addProperty 24 "item" 14, addProperty 25 "rest" 13, addProperty 26 "make" 21]

def session : Session := (Session.replay? commands).getD {}

def int : TypeExpr := .inst ⟨0, ⟨"default", "Int"⟩, .classKind⟩ [] false

def text : TypeExpr := .inst ⟨1, ⟨"default", "Text"⟩, .classKind⟩ [] false

def box (element : TypeExpr) : TypeExpr :=
  .inst ⟨2, ⟨"default", "Box"⟩, .classKind⟩ [("E", element)] false

def envelope : Definition := ⟨3, ⟨"default", "Envelope"⟩, .classKind⟩

/-- The properties, with the bound that references to `T` have that were made without one. -/
def properties (bound : Option TypeExpr) : List (String × TypeExpr) := [
  ("item", .var "T" bound true), ("rest", .var "U" none false),
  ("make", .fn [("x", box (.var "T" bound false)), ("y", .var "T" (some int) false)]
    (.var "U" none false))]

def draft : Draft :=
  { Draft.start "Envelope" .classKind with
    parameters := [⟨"T", some text⟩, ⟨"U", none⟩]
    properties := properties none }

def closed : Universe :=
  ((draft.construct session.known).toOption.map (·.2)).getD {}

/-- Looking up `length` on `item` comes to the property of `Text`, and on `rest` to nothing. -/
theorem envelope_closed :
    closed.properties envelope = properties (some text) ∧
      (∀ p ∈ properties (some text), p.2.withBounds draft.parameters = p.2) ∧
      closed.findIn 1 "length" (.var "T" (some text) true) = closed.findIn 1 "length" text ∧
      closed.findIn 1 "length" text = .ok (some ⟨0, 0, int⟩) ∧
      closed.findIn 1 "length" (.var "U" none false) = .ok none := by
  have hreplay : Session.replay? commands = some session := rfl
  have h : Session.Reachable true session := Session.reachable_of_replay? hreplay
  have hdraft : .draft draft ∈ session.items := Session.mem_of_draft? (n := 27) rfl
  have hconstruct : draft.construct session.known = .ok (envelope, closed) := rfl
  have hproperties : closed.properties envelope = properties (some text) := rfl
  obtain ⟨_, hattached⟩ := h.attached_of_construct hdraft hconstruct
  rw [hproperties] at hattached
  obtain ⟨hitem, hattached⟩ := List.forall₂_cons.mp hattached
  obtain ⟨hrest, hattached⟩ := List.forall₂_cons.mp hattached
  obtain ⟨hmake, _⟩ := List.forall₂_cons.mp hattached
  obtain ⟨p, hp, hlookup, _⟩ := hitem.2.lookup "T" true rfl
  obtain ⟨q, hq, _, hnothing⟩ := hrest.2.lookup "U" false rfl
  cases hp
  cases hq
  refine ⟨hproperties, ?_, hlookup text rfl closed 1 "length", rfl,
    hnothing rfl closed 1 "length"⟩
  exact List.forall_mem_cons.mpr ⟨hitem.2.settled, List.forall_mem_cons.mpr
    ⟨hrest.2.settled, List.forall_mem_singleton.mpr hmake.2.settled⟩⟩

end Envelopes

end NominalTypes
