import NominalTypes.Proofs.Contents
import NominalTypes.Proofs.Members
import NominalTypes.Proofs.Specialization.Subtyping
import NominalTypes.Proofs.Stability

/-!
# Members that a target promises

A name that a target has is there on every source that it accepts.  Along a parent it is inherited.
An interface passes nothing on: its names are there because closing a definition checks that each of
them is declared, which has to hold on when other definitions are closed later.

* `Universe.Coherent.mem_propertyNames_iff`: the property names of a definition are those declared
  on it and on the parents above it;
* `Universe.Coherent.provides_of_conform`: what the check at closing time finds out about names;
* `Session.Reachable.provides`: this stays true of every body, by induction on the steps;
* `Session.Reachable.members_promised`: names of an accepting target are names of the source.
-/

namespace NominalTypes

/-- The instance at the end of a chain of upper bounds, which for an instance is itself. -/
def TypeExpr.upper? : TypeExpr → Option Instance
  | .inst d args nullable => some ⟨d, args, nullable⟩
  | .var _ none _ => none
  | .var _ (some bound) _ => bound.upper?
  | .fn _ _ => none

namespace Universe

variable {U V : Universe} {d e : Definition} {name : String}

/-! ## Names on the way up -/

def ParentLink (U : Universe) (d e : Definition) : Prop :=
  (U.parent? d).map (·.definition) = some e

theorem mem_pushNew_iff {names new : List String} :
    name ∈ pushNew names new ↔ name ∈ names ∨ name ∈ new := by
  induction new generalizing names with
  | nil => simp [pushNew]
  | cons n rest ih =>
    rw [pushNew, List.foldl_cons, ← pushNew, ih, List.mem_cons]
    split
    · next hn =>
      have hmem : n ∈ names := by simpa using hn
      constructor
      · exact Or.imp_right .inr
      · rintro (h | rfl | h)
        · exact .inl h
        · exact .inl hmem
        · exact .inr h
    · rw [List.mem_append, List.mem_singleton, or_assoc]

/-- The loop adds what is declared on the levels that it comes through. -/
theorem Collects.mem_iff {current : Option Definition} {names result : List String}
    (h : U.Collects current names result) :
    name ∈ result ↔ name ∈ names ∨ ∃ d, current = some d ∧
      ∃ e, Relation.ReflTransGen U.ParentLink d e ∧ name ∈ U.declaredNames e := by
  induction h with
  | done names => simp
  | @level d names result _ ih =>
    rw [ih, mem_pushNew_iff, or_assoc]
    refine or_congr_right ?_
    constructor
    · rintro (hmem | ⟨p, hp, e, hpe, hmem⟩)
      · exact ⟨d, rfl, d, .refl, hmem⟩
      · exact ⟨d, rfl, e, .head hp hpe, hmem⟩
    · rintro ⟨_, ⟨⟩, e, hde, hmem⟩
      rcases Relation.ReflTransGen.cases_head hde with rfl | ⟨p, hp, hpe⟩
      · exact .inl hmem
      · exact .inr ⟨p, hp, e, hpe, hmem⟩

theorem Coherent.mem_propertyNames_iff (hU : U.Coherent) (hd : d ∈ U.definitions) :
    name ∈ U.propertyNames d ↔
      ∃ e, Relation.ReflTransGen U.ParentLink d e ∧ name ∈ U.declaredNames e := by
  have hcollects : U.Collects (some d) [] (U.propertyNames d) := (hU.collects_iff hd).mpr rfl
  rw [hcollects.mem_iff]
  simp

/-! ## Names of interfaces -/

/-- Every name of an interface that the body implements is declared in it. -/
def Provides (U : Universe) (b : Body) : Prop :=
  ∀ i ∈ b.interfaces, ∀ name ∈ U.propertyNames i.definition, name ∈ b.properties.map (·.1)

theorem allProperties_of_conform {limit : Nat} {definition : String} {interfaces : List Instance}
    {properties : List (String × TypeExpr)}
    (h : U.conform limit definition interfaces properties = .ok ()) :
    ∀ i ∈ interfaces, ∃ required, U.allProperties limit i = .ok required := by
  intro i hi
  obtain ⟨kept, hkept, _⟩ := bind_eq_ok_iff.mp h
  obtain ⟨_, _, hstep⟩ := exists_of_foldlM_eq_ok hkept i hi
  obtain ⟨required, hrequired, _⟩ := bind_eq_ok_iff.mp hstep
  exact ⟨required, hrequired⟩

/-- Every required name is declared, for the interface that requires it first. -/
theorem Coherent.provides_of_conform (hU : U.Coherent) {limit : Nat} {definition : String}
    {b : Body} (hi : ∀ i ∈ b.interfaces, U.Admits i.toExpr)
    (h : U.conform limit definition b.interfaces b.properties = .ok ()) : U.Provides b := by
  classical
  choose! required hrequired using allProperties_of_conform h
  have hdistinct : ∀ i ∈ b.interfaces, ∀ p ∈ required i, p.2.Distinct := fun i hmem p hp =>
    (hU.admits_listed (admits_toExpr.mp (hi i hmem)).2 (hrequired i hmem) hp).distinct
  obtain ⟨_, hmet⟩ := (conform_judges hrequired hdistinct).1.mp h
  intro i hmem name hname
  rw [hU.propertyNames_eq (admits_toExpr.mp (hi i hmem)).1 (hrequired i hmem),
    List.mem_eraseDups] at hname
  obtain ⟨f, hf⟩ := exists_first? hmem hname
  obtain ⟨p, hp, hpname⟩ := List.mem_map.mp (mem_of_first? hf).2
  have htype : p.2 ∈ typesNamed name (required f) := mem_typesNamed_iff.mpr (hpname ▸ hp)
  obtain ⟨q, hq, hqname, _⟩ := hmet name f hf p.2 htype
  exact List.mem_map.mpr ⟨q, hq, hqname⟩

/-- The names of a closed interface stay what they are. -/
theorem Grows.provides (hU : U.Coherent) (hV : V.Coherent) (h : U.Grows V) {b : Body}
    {kind : Kind} (hb : U.Allows kind b) (hprovides : U.Provides b) : V.Provides b := by
  intro i hi name hname
  have hsuper : i ∈ b.supertypes := List.mem_append_right _ hi
  have hmem := (admits_toExpr.mp (hb.supertypes i hsuper)).1
  rw [(h.agrees hU).propertyNames hU hV (hb.closed i hsuper) hmem (h.definitions _ hmem)] at hname
  exact hprovides i hi name hname

/-! ## Names along a path -/

theorem Coherent.propertyNames_of_link (hU : U.Coherent) (hprovides : U.Provides (U.body d))
    (hd : d ∈ U.definitions) (h : U.Link d e) (hname : name ∈ U.propertyNames e) :
    name ∈ U.propertyNames d := by
  have he := hU.mem_of_link h
  obtain ⟨i, hi, rfl⟩ := h
  rcases mem_supertypes_iff.mp hi with hp | hp
  · have hlink : U.ParentLink d i.definition := by rw [ParentLink, hp, Option.map_some]
    obtain ⟨f, hf, hdeclared⟩ := (hU.mem_propertyNames_iff he).mp hname
    exact (hU.mem_propertyNames_iff hd).mpr ⟨f, .head hlink hf, hdeclared⟩
  · exact (hU.mem_propertyNames_iff hd).mpr ⟨d, .refl, hprovides i hp name hname⟩

theorem Coherent.propertyNames_of_path (hU : U.Coherent) (hprovides : ∀ d, U.Provides (U.body d))
    {s t : Instance} {nodes : List Instance} (hs : s.definition ∈ U.definitions)
    (h : U.Path s nodes t) (hname : name ∈ U.propertyNames t.definition) :
    name ∈ U.propertyNames s.definition := by
  induction h with
  | here s => exact hname
  | up hop _ ih =>
    have habove := ih (hU.mem_of_link hop.link) hname
    exact hU.propertyNames_of_link (hprovides _) hs hop.link habove

/-- A variable is accepted through the end of its chain of bounds. -/
theorem exists_upper_of_instanceAccepts {limit : Nat} {target : Instance} {source : TypeExpr}
    (hs : U.Admits source) (h : U.instanceAccepts limit target source = .ok true) :
    ∃ i, source.upper? = some i ∧ i.definition ∈ U.definitions ∧
      U.accepts limit target i = .ok true := by
  induction source with
  | inst d args n => exact ⟨⟨d, args, n⟩, rfl, (admits_toExpr (i := ⟨d, args, n⟩).mp hs).1, h⟩
  | var x n => cases h
  | bounded x b n ih =>
    rw [instanceAccepts] at h
    split at h
    · cases h
    · exact ih (TypeExpr.everywhere_bounded.mp hs) h
  | fn ps r _ _ => cases h

end Universe

/-! ## Reachable sessions -/

namespace Session

variable {lenient : Bool} {S T : Session}

/-- A step leaves a body as it was, or puts that of a draft in its place. -/
theorem WellFormed.body_of_step (hs : S.WellFormed) (h : Step lenient S T) (d : Definition) :
    T.known.body d = S.known.body d ∨ ∃ draft e U, .draft draft ∈ S.items ∧
      draft.construct S.known = .ok (e, U) ∧ T.known.body d = draft.body := by
  cases h with
  | make _ => exact .inl rfl
  | @reference draft _ => exact .inl (draft.body_reference S.known d)
  | @construct draft e U hd h =>
    rcases hs.coherent.body_of_construct (hs.items _ hd) h d with hbody | hbody
    · exact .inr ⟨draft, e, U, hd, h, hbody⟩
    · exact .inl hbody

theorem Reachable.provides (h : Reachable lenient S) (d : Definition) :
    S.known.Provides (S.known.body d) := by
  induction h generalizing d with
  | refl => exact fun i hi => absurd hi List.not_mem_nil
  | @step S T h hstep ih =>
    have hS := Reachable.wellFormed h
    have hT := hS.step hstep
    rcases hS.body_of_step hstep d with hbody | ⟨draft, e, U, hd, hconstruct, hbody⟩
    · obtain ⟨kind, hallows, _⟩ := hS.coherent.body_spec d
      rw [hbody]
      exact (hS.grows hstep).provides hS.coherent hT.coherent hallows (ih d)
    · obtain ⟨_, _, _, hconform, _⟩ := Draft.construct_eq_ok hconstruct
      have hallows := Draft.allows_body (hS.items _ hd).allows
      have hadmits (i : Instance) (hi : i ∈ draft.body.interfaces) : S.known.Admits i.toExpr :=
        hallows.supertypes i (List.mem_append_right _ hi)
      rw [hbody]
      exact (hS.grows hstep).provides hS.coherent hT.coherent hallows
        (hS.coherent.provides_of_conform hadmits hconform)

/-- Whatever an accepted type is used for by name, it has a member of that name. -/
theorem Reachable.members_promised (h : Reachable lenient S) (hu : S.known.Unambiguous)
    {target : Instance} {source : TypeExpr} (ht : .type target.toExpr ∈ S.items)
    (hs : .type source ∈ S.items) {limit : Nat}
    (ha : S.known.acceptsExpr limit target.toExpr source = .ok true) :
    ∃ i, source.upper? = some i ∧
      ∀ name ∈ S.known.propertyNames target.definition,
        name ∈ S.known.propertyNames i.definition := by
  have hU := h.wellFormed.coherent
  obtain ⟨i, hi, hmem, haccepts⟩ := Universe.exists_upper_of_instanceAccepts (h.admits hs) ha
  obtain ⟨nodes, found, hpath, hfound, _, _⟩ :=
    hU.fits_of_acceptsFrom hu (h.definition_mem ht) hmem haccepts
  refine ⟨i, hi, fun name hname => ?_⟩
  rw [← hfound] at hname
  exact hU.propertyNames_of_path h.provides hmem hpath hname

end Session

namespace Shelves

/-- A variable with the bound `Rack<X=X>`. -/
def element : TypeExpr := .var "R" (some (rack (var "X")).toExpr) false

def withElement : Session := ⟨known, .type element :: session.items⟩

theorem reachable_withElement : Session.Reachable true withElement :=
  .step reachable (.make (.boundedVar "R" rack_var_mem))

theorem unambiguous : withElement.known.Unambiguous := by
  unfold Universe.Unambiguous
  decide

/-- `Box` is three levels above the bound: a parent, an interface, and its parent in turn. -/
theorem element_has_item :
    withElement.known.acceptsExpr 3 (box (source (var "X")).toExpr).toExpr element = .ok true ∧
      withElement.known.propertyNames (box (source (var "X")).toExpr).definition = ["item"] ∧
      ∃ i, element.upper? = some i ∧
        ∀ name ∈ withElement.known.propertyNames (box (source (var "X")).toExpr).definition,
          name ∈ withElement.known.propertyNames i.definition := by
  have haccepts : withElement.known.acceptsExpr 3 (box (source (var "X")).toExpr).toExpr element =
      .ok true := rfl
  have hbox : .type (box (source (var "X")).toExpr).toExpr ∈ withElement.items :=
    List.mem_cons_of_mem _ box_mem
  exact ⟨haccepts, rfl, reachable_withElement.members_promised unambiguous hbox List.mem_cons_self
    haccepts⟩

end Shelves

end NominalTypes
