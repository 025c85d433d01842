import NominalTypes.Proofs.Supertypes

/-!
# Coherent universes

What declaring and closing keep true of a universe:

* each declaration stands at the index that is its `id`;
* a body refers to declared definitions only, and binds no parameter twice (`Universe.Admits`); its
  supertypes are closed and of the right kind (`Universe.Allows`); its variables are its own
  parameters (`Body.Scoped`);
* the supertype graph is well-founded: a body can only point to definitions that were closed before.

`Universe.Coherent.declare` and `Universe.Coherent.close` are the two step lemmas.
-/

namespace NominalTypes

/-! ## Bodies -/

/-- Every type expression in the body. -/
def Body.expressions (b : Body) : List TypeExpr :=
  b.parameters.filterMap (·.bound) ++ b.properties.map (·.2) ++
    b.supertypes.flatMap fun i => i.args.map (·.2)

theorem Body.mem_expressions_iff {b : Body} {t : TypeExpr} :
    t ∈ b.expressions ↔
      (∃ p ∈ b.parameters, p.bound = some t) ∨ (∃ p ∈ b.properties, p.2 = t) ∨
        ∃ i ∈ b.supertypes, ∃ e ∈ i.args, e.2 = t := by
  simp only [expressions, List.mem_append, List.mem_filterMap, List.mem_map, List.mem_flatMap,
    or_assoc]

/-- Every type in the body, a supertype being one type with its arguments. -/
def Body.types (b : Body) : List TypeExpr :=
  b.parameters.filterMap (·.bound) ++ b.properties.map (·.2) ++ b.supertypes.map (·.toExpr)

theorem Body.mem_types_iff {b : Body} {t : TypeExpr} :
    t ∈ b.types ↔
      (∃ p ∈ b.parameters, p.bound = some t) ∨ (∃ p ∈ b.properties, p.2 = t) ∨
        ∃ i ∈ b.supertypes, i.toExpr = t := by
  simp only [types, List.mem_append, List.mem_filterMap, List.mem_map, or_assoc]

theorem Body.property_mem_types {b : Body} {p : String × TypeExpr} (hp : p ∈ b.properties) :
    p.2 ∈ b.types :=
  List.mem_append_left _ (List.mem_append_right _ (List.mem_map.mpr ⟨p, hp, rfl⟩))

theorem Body.supertype_mem_types {b : Body} {i : Instance} (hi : i ∈ b.supertypes) :
    i.toExpr ∈ b.types :=
  List.mem_append_right _ (List.mem_map.mpr ⟨i, hi, rfl⟩)

/-- A variable in a type of the body is in one of its expressions. -/
theorem Body.exists_expression {b : Body} {t : TypeExpr} (ht : t ∈ b.types) {v : Variable}
    (hv : v ∈ t.references) : ∃ e ∈ b.expressions, v ∈ e.references := by
  rw [types, List.mem_append] at ht
  rcases ht with ht | ht
  · exact ⟨t, List.mem_append_left _ ht, hv⟩
  · obtain ⟨i, hi, rfl⟩ := List.mem_map.mp ht
    rw [Instance.toExpr, TypeExpr.references, TypeExpr.referencesOfEach_eq_flatMap,
      List.mem_flatMap] at hv
    obtain ⟨e, he, hv⟩ := hv
    exact ⟨e.2, mem_expressions_iff.mpr (.inr (.inr ⟨i, hi, e, he, rfl⟩)), hv⟩

/-- Every variable in the body is one of its parameters. -/
def Body.Scoped (b : Body) : Prop :=
  ∀ t ∈ b.expressions, ∀ v ∈ t.references, Parameter.declares b.parameters v.name = true

namespace Universe

variable {U V : Universe}

/-- All definitions mentioned are declared, and no argument list binds a parameter twice. -/
def Admits (U : Universe) (t : TypeExpr) : Prop :=
  t.Everywhere fun d names => d ∈ U.definitions ∧ names.Nodup

def AdmitsArgs (U : Universe) (b : Bindings) : Prop :=
  (b.map (·.1)).Nodup ∧ ∀ e ∈ b, U.Admits e.2

structure Allows (U : Universe) (kind : Kind) (b : Body) : Prop where
  parent_kind : ∀ i, b.parent = some i → i.definition.kind = kind
  interface_kind : ∀ i ∈ b.interfaces, i.definition.isInterface = true
  closed : ∀ i ∈ b.supertypes, U.isClosed i.definition = true
  supertypes : ∀ i ∈ b.supertypes, U.Admits i.toExpr
  bounds : ∀ p ∈ b.parameters, ∀ t, p.bound = some t → U.Admits t
  properties : ∀ p ∈ b.properties, U.Admits p.2

structure Coherent (U : Universe) : Prop where
  id_eq : ∀ (n : Nat) (e : Entry), U.entries[n]? = some e → e.definition.id = n
  allows : ∀ (n : Nat) (e : Entry) (b : Body), U.entries[n]? = some e → e.body = some b →
    U.Allows e.definition.kind b ∧ b.Scoped
  wellFounded : WellFounded fun e d => U.Link d e

theorem admits_toExpr {i : Instance} :
    U.Admits i.toExpr ↔ i.definition ∈ U.definitions ∧ U.AdmitsArgs i.args := by
  rw [Admits, Instance.toExpr, TypeExpr.everywhere_inst, and_assoc]
  rfl

theorem Admits.distinct {t : TypeExpr} (h : U.Admits t) : t.Distinct :=
  h.imp fun _ _ hd => hd.2

theorem AdmitsArgs.distinct {b : Bindings} (h : U.AdmitsArgs b) : ∀ e ∈ b, e.2.Distinct :=
  fun e he => (h.2 e he).distinct

theorem AdmitsArgs.sameAs_refl {b : Bindings} (h : U.AdmitsArgs b) : b.sameAs b = true :=
  Bindings.sameAs_refl h.1 h.distinct

theorem AdmitsArgs.remap_congr {a b outer outer' c : Bindings} (ha : U.AdmitsArgs a)
    (hb : U.AdmitsArgs b) (hab : a.sameAs b = true) (ho : outer.sameAs outer' = true)
    (h : a.remap outer = .ok c) : ∃ d, b.remap outer' = .ok d ∧ c.sameAs d = true :=
  Bindings.remap_congr ha.1 hb.1 ha.distinct hb.distinct hab ho h

theorem allows_empty (U : Universe) (kind : Kind) : U.Allows kind {} := by
  constructor <;> simp [Body.supertypes]

theorem Allows.admits_of_mem_types {kind : Kind} {b : Body} (h : U.Allows kind b) {t : TypeExpr}
    (ht : t ∈ b.types) : U.Admits t := by
  rcases Body.mem_types_iff.mp ht with ⟨p, hp, hb⟩ | ⟨p, hp, rfl⟩ | ⟨i, hi, rfl⟩
  · exact h.bounds p hp t hb
  · exact h.properties p hp
  · exact h.supertypes i hi

/-- One more supertype, closed and admitted, leaves all of them so. -/
theorem Allows.add_supertype {kind : Kind} {b c : Body} {i : Instance} (hb : U.Allows kind b)
    (hi : U.isClosed i.definition = true) (ha : U.Admits i.toExpr)
    (hc : ∀ j ∈ c.supertypes, j = i ∨ j ∈ b.supertypes) :
    (∀ j ∈ c.supertypes, U.isClosed j.definition = true) ∧
      ∀ j ∈ c.supertypes, U.Admits j.toExpr := by
  constructor
  · intro j hj
    rcases hc j hj with rfl | hj
    · exact hi
    · exact hb.closed j hj
  · intro j hj
    rcases hc j hj with rfl | hj
    · exact ha
    · exact hb.supertypes j hj

/-! ## Reading a coherent universe -/

theorem mem_definitions_iff {d : Definition} :
    d ∈ U.definitions ↔ ∃ (n : Nat) (e : Entry), U.entries[n]? = some e ∧ e.definition = d := by
  simp only [definitions, List.mem_map, Array.mem_toList_iff, Array.mem_iff_getElem?]
  constructor
  · rintro ⟨e, ⟨n, hn⟩, rfl⟩
    exact ⟨n, e, hn, rfl⟩
  · rintro ⟨n, e, hn, rfl⟩
    exact ⟨e, ⟨n, hn⟩, rfl⟩

theorem body?_eq_some_iff {d : Definition} {b : Body} :
    U.body? d = some b ↔ ∃ e : Entry, U.entries[d.id]? = some e ∧ e.body = some b := by
  rw [body?, Option.bind_eq_some_iff]

theorem body_of_body? {d : Definition} {b : Body} (h : U.body? d = some b) : U.body d = b := by
  rw [body, h, Option.getD_some]

namespace Coherent

theorem entry (hU : U.Coherent) {d : Definition} (hd : d ∈ U.definitions) :
    ∃ e : Entry, U.entries[d.id]? = some e ∧ e.definition = d := by
  obtain ⟨n, e, hn, rfl⟩ := mem_definitions_iff.mp hd
  exact ⟨e, by rw [hU.id_eq n e hn, hn], rfl⟩

theorem eq_of_id_eq (hU : U.Coherent) {d e : Definition} (hd : d ∈ U.definitions)
    (he : e ∈ U.definitions) (h : d.id = e.id) : d = e := by
  obtain ⟨x, hx, rfl⟩ := hU.entry hd
  obtain ⟨y, hy, rfl⟩ := hU.entry he
  rw [h, hy] at hx
  cases hx
  rfl

/-- A body that can be read is the body of a declaration. -/
theorem exists_definition (hU : U.Coherent) {d : Definition} {b : Body} (h : U.body? d = some b) :
    ∃ e ∈ U.definitions, U.body? e = some b := by
  obtain ⟨x, hx, hb⟩ := body?_eq_some_iff.mp h
  refine ⟨x.definition, mem_definitions_iff.mpr ⟨d.id, x, hx, rfl⟩, body?_eq_some_iff.mpr ⟨x, ?_, hb⟩⟩
  rwa [hU.id_eq d.id x hx]

/-- Every body that can be read, the empty body of an open definition included. -/
theorem body_spec (hU : U.Coherent) (d : Definition) :
    ∃ kind, U.Allows kind (U.body d) ∧ (U.body d).Scoped ∧ (d ∈ U.definitions → kind = d.kind) := by
  cases hb : U.body? d with
  | none =>
    rw [body, hb]
    refine ⟨d.kind, allows_empty U _, fun t ht => ?_, fun _ => rfl⟩
    simp [Body.expressions, Body.supertypes] at ht
  | some b =>
    obtain ⟨e, he, hb'⟩ := body?_eq_some_iff.mp hb
    obtain ⟨hallows, hscoped⟩ := hU.allows _ e b he hb'
    rw [body_of_body? hb]
    refine ⟨e.definition.kind, hallows, hscoped, fun hd => ?_⟩
    obtain ⟨e', he', rfl⟩ := hU.entry hd
    rw [he] at he'
    cases he'
    rfl

theorem allows_body (hU : U.Coherent) {d : Definition} (hd : d ∈ U.definitions) :
    U.Allows d.kind (U.body d) := by
  obtain ⟨kind, hallows, _, hkind⟩ := hU.body_spec d
  exact hkind hd ▸ hallows

theorem scoped_body (hU : U.Coherent) (d : Definition) : (U.body d).Scoped := by
  obtain ⟨_, _, hscoped, _⟩ := hU.body_spec d
  exact hscoped

theorem declares_of_mem_types (hU : U.Coherent) {d : Definition} {t : TypeExpr}
    (ht : t ∈ (U.body d).types) {v : Variable} (hv : v ∈ t.references) :
    Parameter.declares (U.parameters d) v.name = true := by
  obtain ⟨e, he, hv⟩ := Body.exists_expression ht hv
  exact hU.scoped_body d e he v hv

theorem closed_of_mem_supertypes (hU : U.Coherent) {d : Definition} {i : Instance}
    (hi : i ∈ U.supertypes d) : U.isClosed i.definition = true := by
  obtain ⟨_, hallows, _, _⟩ := hU.body_spec d
  exact hallows.closed i hi

theorem admits_of_mem_supertypes (hU : U.Coherent) {d : Definition} {i : Instance}
    (hi : i ∈ U.supertypes d) : U.Admits i.toExpr := by
  obtain ⟨_, hallows, _, _⟩ := hU.body_spec d
  exact hallows.supertypes i hi

theorem admits_of_mem_properties (hU : U.Coherent) {d : Definition} {p : String × TypeExpr}
    (hp : p ∈ U.properties d) : U.Admits p.2 := by
  obtain ⟨_, hallows, _, _⟩ := hU.body_spec d
  exact hallows.properties p hp

theorem admits_of_bound (hU : U.Coherent) {d : Definition} {p : Parameter} {t : TypeExpr}
    (hp : p ∈ U.parameters d) (ht : p.bound = some t) : U.Admits t := by
  obtain ⟨_, hallows, _, _⟩ := hU.body_spec d
  exact hallows.bounds p hp t ht

theorem admits_of_mem_types (hU : U.Coherent) {d : Definition} {t : TypeExpr}
    (ht : t ∈ (U.body d).types) : U.Admits t := by
  obtain ⟨_, hallows, _, _⟩ := hU.body_spec d
  exact hallows.admits_of_mem_types ht

end Coherent

/-! ## Growth -/

/-- No declaration is lost and no body changes. -/
structure Grows (U V : Universe) : Prop where
  definitions : ∀ d ∈ U.definitions, d ∈ V.definitions
  body? : ∀ d b, U.body? d = some b → V.body? d = some b

namespace Grows

theorem refl (U : Universe) : U.Grows U := ⟨fun _ hd => hd, fun _ _ hb => hb⟩

theorem trans {W : Universe} (h : U.Grows V) (h' : V.Grows W) : U.Grows W :=
  ⟨fun d hd => h'.definitions d (h.definitions d hd), fun d b hb => h'.body? d b (h.body? d b hb)⟩

theorem isClosed (h : U.Grows V) {d : Definition} (hd : U.isClosed d = true) :
    V.isClosed d = true := by
  obtain ⟨b, hb⟩ := Option.isSome_iff_exists.mp hd
  exact Option.isSome_iff_exists.mpr ⟨b, h.body? d b hb⟩

theorem body (h : U.Grows V) {d : Definition} (hd : U.isClosed d = true) : V.body d = U.body d := by
  obtain ⟨b, hb⟩ := Option.isSome_iff_exists.mp hd
  rw [body_of_body? hb, body_of_body? (h.body? d b hb)]

theorem admits (h : U.Grows V) {t : TypeExpr} (ht : U.Admits t) : V.Admits t :=
  ht.imp fun d _ hd => ⟨h.definitions d hd.1, hd.2⟩

theorem admitsArgs (h : U.Grows V) {b : Bindings} (hb : U.AdmitsArgs b) : V.AdmitsArgs b :=
  ⟨hb.1, fun e he => h.admits (hb.2 e he)⟩

theorem allows (h : U.Grows V) {kind : Kind} {b : Body} (hb : U.Allows kind b) :
    V.Allows kind b where
  parent_kind := hb.parent_kind
  interface_kind := hb.interface_kind
  closed i hi := h.isClosed (hb.closed i hi)
  supertypes i hi := h.admits (hb.supertypes i hi)
  bounds p hp t ht := h.admits (hb.bounds p hp t ht)
  properties p hp := h.admits (hb.properties p hp)

end Grows

/-! ## Declaring -/

section Declare

variable {qualified : QualifiedName} {kind : Kind}

theorem mem_definitions_declare (U : Universe) (qualified : QualifiedName) (kind : Kind) :
    (U.declare qualified kind).1 ∈ (U.declare qualified kind).2.definitions := by
  rw [definitions_declare]
  exact List.mem_append_right _ List.mem_cons_self

theorem grows_declare (U : Universe) (qualified : QualifiedName) (kind : Kind) :
    U.Grows (U.declare qualified kind).2 where
  definitions d hd := by
    rw [definitions_declare]
    exact List.mem_append_left _ hd
  body? d b hb := by rwa [body?_declare]

theorem Coherent.declare (hU : U.Coherent) : (U.declare qualified kind).2.Coherent where
  id_eq n e he := by
    rw [Universe.declare, Array.getElem?_push] at he
    split at he
    · next hn =>
      cases he
      exact hn.symm
    · exact hU.id_eq n e he
  allows n e b he hb := by
    rw [Universe.declare, Array.getElem?_push] at he
    split at he
    · cases he
      cases hb
    · obtain ⟨hallows, hscoped⟩ := hU.allows n e b he hb
      exact ⟨(grows_declare U qualified kind).allows hallows, hscoped⟩
  wellFounded := by
    have hlink : (U.declare qualified kind).2.Link = U.Link := by
      funext d e
      simp only [Link, Universe.supertypes, body, body?_declare]
    rw [hlink]
    exact hU.wellFounded

end Declare

/-! ## Closing -/

section Close

variable {d : Definition} {b : Body}

theorem isClosed_of_close? (h : U.close? d b = some V) : U.isClosed d = false := by
  rw [← close?_isSome_iff U d b, h]
  rfl

theorem ne_of_open {e : Definition} (hd : U.isClosed d = false) (he : U.isClosed e = true) :
    e.id ≠ d.id := by
  intro hid
  rw [isClosed, body?, hid, ← body?, ← isClosed, hd] at he
  cases he

theorem Coherent.body?_of_close? (hU : U.Coherent) (hd : d ∈ U.definitions)
    (h : U.close? d b = some V) (e : Definition) :
    V.body? e = if e.id = d.id then some b else U.body? e := by
  obtain ⟨x, hx, _⟩ := hU.entry hd
  exact body?_close h (Array.getElem?_eq_some_iff.mp hx).1 e

theorem Coherent.entries_of_close? (hU : U.Coherent) (hd : d ∈ U.definitions)
    (h : U.close? d b = some V) (n : Nat) :
    V.entries[n]? = if d.id = n then some ⟨d, some b⟩ else U.entries[n]? := by
  obtain ⟨x, hx, _⟩ := hU.entry hd
  have hlt := (Array.getElem?_eq_some_iff.mp hx).1
  unfold close? at h
  split at h
  · cases h
  · cases h
    rw [Array.getElem?_setIfInBounds]
    by_cases hn : d.id = n
    · rw [if_pos hn, if_pos hn, if_pos (hn ▸ hlt)]
    · rw [if_neg hn, if_neg hn]

/-- No other body changes, and the definition that is closed had none. -/
theorem Coherent.grows_close (hU : U.Coherent) (hd : d ∈ U.definitions)
    (h : U.close? d b = some V) : U.Grows V where
  definitions e he := by
    obtain ⟨n, x, hx, rfl⟩ := mem_definitions_iff.mp he
    rw [mem_definitions_iff]
    by_cases hn : d.id = n
    · refine ⟨n, ⟨d, some b⟩, by rw [hU.entries_of_close? hd h, if_pos hn], ?_⟩
      exact hU.eq_of_id_eq hd he (by rw [hU.id_eq n x hx, hn])
    · exact ⟨n, x, by rw [hU.entries_of_close? hd h, if_neg hn, hx], rfl⟩
  body? e c hc := by
    have hne : e.id ≠ d.id := by
      refine ne_of_open (isClosed_of_close? h) ?_
      rw [isClosed, hc, Option.isSome_some]
    rw [hU.body?_of_close? hd h, if_neg hne, hc]

/-- Only the closed definition gets new links, and none of them leads to it: supertypes are closed
and it was open. -/
theorem Coherent.wellFounded_close (hU : U.Coherent) (hd : d ∈ U.definitions)
    (hb : ∀ i ∈ b.supertypes, U.isClosed i.definition = true) (h : U.close? d b = some V) :
    WellFounded fun e x => V.Link x e := by
  have hopen := isClosed_of_close? h
  have hother (x : Definition) (hx : x.id ≠ d.id) : Acc (fun e x => V.Link x e) x := by
    induction x using hU.wellFounded.induction with
    | _ x ih =>
      refine Acc.intro x ?_
      rintro e ⟨i, hi, rfl⟩
      have hbody : V.body x = U.body x := by
        rw [body, hU.body?_of_close? hd h, if_neg hx, ← body]
      rw [Universe.supertypes, hbody] at hi
      exact ih i.definition ⟨i, hi, rfl⟩ (ne_of_open hopen (hU.closed_of_mem_supertypes hi))
  refine ⟨fun x => ?_⟩
  by_cases hx : x.id = d.id
  · refine Acc.intro x ?_
    rintro e ⟨i, hi, rfl⟩
    rw [Universe.supertypes, body, hU.body?_of_close? hd h, if_pos hx, Option.getD_some] at hi
    exact hother i.definition (ne_of_open hopen (hb i hi))
  · exact hother x hx

theorem Coherent.close (hU : U.Coherent) (hd : d ∈ U.definitions) (hb : U.Allows d.kind b)
    (hscoped : b.Scoped) (h : U.close? d b = some V) : V.Coherent where
  id_eq n e he := by
    rw [hU.entries_of_close? hd h] at he
    split at he
    · next hn =>
      cases he
      exact hn
    · exact hU.id_eq n e he
  allows n e c he hc := by
    have hgrows := hU.grows_close hd h
    rw [hU.entries_of_close? hd h] at he
    split at he
    · cases he
      cases hc
      exact ⟨hgrows.allows hb, hscoped⟩
    · obtain ⟨hallows, hscoped'⟩ := hU.allows n e c he hc
      exact ⟨hgrows.allows hallows, hscoped'⟩
  wellFounded := hU.wellFounded_close hd hb.closed h

end Close

end Universe

end NominalTypes
