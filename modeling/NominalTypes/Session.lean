import NominalTypes.Draft
import NominalTypes.Instantiation
import NominalTypes.Settings.Toml

/-!
# Sessions

All that can be done with the library, as a transition system: a session holds a universe and
everything that was made so far, and each step makes one more thing of what is there.

* `Makes`: what can be made without touching the universe;
* `Refuses`: how each operation fails, but for closing;
* `Session.Step`: one operation that succeeds; an operation that fails is no step, since it leaves
  the session as it is;
* `Session.Reaches`, `Session.Reachable`: any number of steps, and the sessions that can come about.

Nothing is ever taken away, so a session stands for all choices of what to go on with: an earlier
copy of a draft is still there after a later one was made of it.  With `lenient` set to `false`,
open definitions are not instantiated.
-/

namespace NominalTypes

/-- A thing that later operations can use. -/
inductive Item where
  | draft (value : Draft)
  | instantiation (value : Instantiation)
  | type (value : TypeExpr)
  | bindings (value : Bindings)

inductive Makes (lenient : Bool) (U : Universe) (items : List Item) : Item → Prop where
  -- drafts
  | startDraft (name : String) (kind : Kind) :
    Makes lenient U items (.draft (Draft.start name kind))
  | configureDraft {draft : Draft} (settings : Settings) : .draft draft ∈ items →
    Makes lenient U items (.draft (draft.configure settings))
  | inPackage {draft : Draft} (package : String) : .draft draft ∈ items →
    Makes lenient U items (.draft (draft.inPackage package))
  | inherit {draft changed : Draft} {parent : Instance} :
    .draft draft ∈ items → .type parent.toExpr ∈ items → draft.inherit U parent = .ok changed →
    Makes lenient U items (.draft changed)
  | implement {draft changed : Draft} {interface : Instance} :
    .draft draft ∈ items → .type interface.toExpr ∈ items →
    draft.implement U interface = .ok changed → Makes lenient U items (.draft changed)
  | addParameter {draft changed : Draft} {name : String} :
    .draft draft ∈ items → draft.addParameter ⟨name, none⟩ = .ok changed →
    Makes lenient U items (.draft changed)
  | addBoundedParameter {draft changed : Draft} {name : String} {bound : TypeExpr} :
    .draft draft ∈ items → .type bound ∈ items →
    draft.addParameter ⟨name, some bound⟩ = .ok changed → Makes lenient U items (.draft changed)
  | addProperty {draft changed : Draft} {name : String} {type : TypeExpr} :
    .draft draft ∈ items → .type type ∈ items → draft.addProperty name type = .ok changed →
    Makes lenient U items (.draft changed)
  | refer {draft : Draft} {name : String} {type : TypeExpr} :
    .draft draft ∈ items → draft.refer name = .ok type → Makes lenient U items (.type type)
  -- instantiations
  | startInstantiation {d : Definition} : d ∈ U.definitions →
    Makes lenient U items (.instantiation (Instantiation.start d))
  | configureInstantiation {i : Instantiation} (settings : Settings) : .instantiation i ∈ items →
    Makes lenient U items (.instantiation (i.configure settings))
  | bind {i changed : Instantiation} {parameter : String} {type : TypeExpr} :
    .instantiation i ∈ items → .type type ∈ items → i.bind parameter type = .ok changed →
    Makes lenient U items (.instantiation changed)
  | nullableInstantiation {i : Instantiation} : .instantiation i ∈ items →
    Makes lenient U items (.instantiation i.toNullable)
  | construct {i : Instantiation} {made : Instance} :
    .instantiation i ∈ items → (lenient = true ∨ U.isClosed i.definition = true) →
    i.construct U = .ok made → Makes lenient U items (.type made.toExpr)
  -- type expressions
  | var (name : String) : Makes lenient U items (.type (.var name none false))
  | boundedVar (name : String) {bound : TypeExpr} : .type bound ∈ items →
    Makes lenient U items (.type (.var name (some bound) false))
  | fn {params : List (String × TypeExpr)} {result : TypeExpr} :
    (∀ p ∈ params, .type p.2 ∈ items) → .type result ∈ items →
    Makes lenient U items (.type (.fn params result))
  | nullable {type : TypeExpr} : .type type ∈ items →
    Makes lenient U items (.type type.toNullable)
  | substitute {type result : TypeExpr} {b : Bindings} :
    .type type ∈ items → .bindings b ∈ items → type.substitute b = .ok result →
    Makes lenient U items (.type result)
  -- parts of type expressions
  | bound {v : Variable} {type : TypeExpr} : .type v.toExpr ∈ items → v.bound = some type →
    Makes lenient U items (.type type)
  | param {params : List (String × TypeExpr)} {result : TypeExpr} {p : String × TypeExpr} :
    .type (.fn params result) ∈ items → p ∈ params → Makes lenient U items (.type p.2)
  | result {params : List (String × TypeExpr)} {result : TypeExpr} :
    .type (.fn params result) ∈ items → Makes lenient U items (.type result)
  -- what definitions hold
  | reference {d : Definition} {name : String} {type : TypeExpr} :
    d ∈ U.definitions → U.reference? d name = some type → Makes lenient U items (.type type)
  | supertype {d : Definition} {i : Instance} :
    d ∈ U.definitions → (U.parent? d = some i ∨ i ∈ U.interfaces d) →
    Makes lenient U items (.type i.toExpr)
  | property {d : Definition} {p : String × TypeExpr} :
    d ∈ U.definitions → p ∈ U.properties d → Makes lenient U items (.type p.2)
  -- what queries find
  | found {limit : Nat} {name : String} {d : Definition} {b : Bindings} {found : Found} :
    d ∈ U.definitions → .bindings b ∈ items →
    U.find limit name ⟨d, b, false⟩ = .ok (some found) → Makes lenient U items (.type found.type)
  | foundIn {limit : Nat} {name : String} {type : TypeExpr} {found : Found} :
    .type type ∈ items → U.findIn limit name type = .ok (some found) →
    Makes lenient U items (.type found.type)
  | listed {limit : Nat} {i : Instance} {properties : List (String × TypeExpr)}
      {p : String × TypeExpr} :
    .type i.toExpr ∈ items → U.allProperties limit i = .ok properties → p ∈ properties →
    Makes lenient U items (.type p.2)
  -- bindings
  | addBinding {b changed : Bindings} {parameter : String} {type : TypeExpr} :
    .bindings b ∈ items → .type type ∈ items → b.add parameter type = .ok changed →
    Makes lenient U items (.bindings changed)
  | ofEntries {entries : List (String × TypeExpr)} : (∀ e ∈ entries, .type e.2 ∈ items) →
    Makes lenient U items (.bindings (Bindings.ofEntries entries))
  | args {i : Instance} : .type i.toExpr ∈ items → Makes lenient U items (.bindings i.args)
  | remap {b outer result : Bindings} :
    .bindings b ∈ items → .bindings outer ∈ items → b.remap outer = .ok result →
    Makes lenient U items (.bindings result)
  | resolve {b : Bindings} {parameter : String} {type : TypeExpr} :
    .bindings b ∈ items → b.resolve parameter = .ok type → Makes lenient U items (.type type)

/-- Some operation fails with the fault on what is there.  Operations that make nothing, and only
answer or read settings, can fail as well. -/
inductive Refuses (U : Universe) (items : List Item) (fault : Fault) : Prop where
  | inherit {draft : Draft} {parent : Instance} :
    .draft draft ∈ items → .type parent.toExpr ∈ items → draft.inherit U parent = .error fault →
    Refuses U items fault
  | implement {draft : Draft} {interface : Instance} :
    .draft draft ∈ items → .type interface.toExpr ∈ items →
    draft.implement U interface = .error fault → Refuses U items fault
  | addParameter {draft : Draft} {name : String} :
    .draft draft ∈ items → draft.addParameter ⟨name, none⟩ = .error fault → Refuses U items fault
  | addBoundedParameter {draft : Draft} {name : String} {bound : TypeExpr} :
    .draft draft ∈ items → .type bound ∈ items →
    draft.addParameter ⟨name, some bound⟩ = .error fault → Refuses U items fault
  | addProperty {draft : Draft} {name : String} {type : TypeExpr} :
    .draft draft ∈ items → .type type ∈ items → draft.addProperty name type = .error fault →
    Refuses U items fault
  | refer {draft : Draft} {name : String} :
    .draft draft ∈ items → draft.refer name = .error fault → Refuses U items fault
  | bind {i : Instantiation} {parameter : String} {type : TypeExpr} :
    .instantiation i ∈ items → .type type ∈ items → i.bind parameter type = .error fault →
    Refuses U items fault
  | construct {i : Instantiation} :
    .instantiation i ∈ items → i.construct U = .error fault → Refuses U items fault
  | substitute {type : TypeExpr} {b : Bindings} :
    .type type ∈ items → .bindings b ∈ items → type.substitute b = .error fault →
    Refuses U items fault
  | find {limit : Nat} {name : String} {d : Definition} {b : Bindings} :
    d ∈ U.definitions → .bindings b ∈ items → U.find limit name ⟨d, b, false⟩ = .error fault →
    Refuses U items fault
  | findIn {limit : Nat} {name : String} {type : TypeExpr} :
    .type type ∈ items → U.findIn limit name type = .error fault → Refuses U items fault
  | list {limit : Nat} {i : Instance} :
    .type i.toExpr ∈ items → U.allProperties limit i = .error fault → Refuses U items fault
  | accept {limit : Nat} {target source : TypeExpr} :
    .type target ∈ items → .type source ∈ items → U.acceptsExpr limit target source = .error fault →
    Refuses U items fault
  | addBinding {b : Bindings} {parameter : String} {type : TypeExpr} :
    .bindings b ∈ items → .type type ∈ items → b.add parameter type = .error fault →
    Refuses U items fault
  | remap {b outer : Bindings} :
    .bindings b ∈ items → .bindings outer ∈ items → b.remap outer = .error fault →
    Refuses U items fault
  | resolve {b : Bindings} {parameter : String} :
    .bindings b ∈ items → b.resolve parameter = .error fault → Refuses U items fault
  | readSettings {document : String} :
    Settings.ofToml document = .error fault → Refuses U items fault

/-- All declarations, and all that was made besides. -/
structure Session where
  known : Universe := {}
  items : List Item := []

namespace Session

inductive Step (lenient : Bool) : Session → Session → Prop where
  | make {s : Session} {item : Item} : Makes lenient s.known s.items item →
    Step lenient s ⟨s.known, item :: s.items⟩
  | reference {s : Session} {draft : Draft} : .draft draft ∈ s.items →
    Step lenient s
      ⟨(draft.reference s.known).2.2, .draft (draft.reference s.known).2.1 :: s.items⟩
  | construct {s : Session} {draft : Draft} {d : Definition} {U : Universe} :
    .draft draft ∈ s.items → draft.construct s.known = .ok (d, U) → Step lenient s ⟨U, s.items⟩

inductive Reaches (lenient : Bool) : Session → Session → Prop where
  | refl (s : Session) : Reaches lenient s s
  | step {s t u : Session} : Reaches lenient s t → Step lenient t u → Reaches lenient s u

/-- The session comes about from nothing. -/
def Reachable (lenient : Bool) (s : Session) : Prop := Reaches lenient {} s

theorem Reaches.trans {lenient : Bool} {s t u : Session} (h : Reaches lenient s t)
    (h' : Reaches lenient t u) : Reaches lenient s u := by
  induction h' with
  | refl => exact h
  | step _ hstep ih => exact ih.step hstep

/-- Nothing is taken away. -/
theorem Reaches.items_subset {lenient : Bool} {s t : Session} (h : Reaches lenient s t) :
    ∀ item ∈ s.items, item ∈ t.items := by
  induction h with
  | refl => exact fun _ hi => hi
  | step _ hstep ih =>
    intro item hi
    cases hstep with
    | make _ => exact List.mem_cons_of_mem _ (ih item hi)
    | reference _ => exact List.mem_cons_of_mem _ (ih item hi)
    | construct _ _ => exact ih item hi

end Session

end NominalTypes
