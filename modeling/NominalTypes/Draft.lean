import NominalTypes.Conformance
import NominalTypes.Settings
import NominalTypes.TypeExpr.Occurrences

/-!
# Drafts

A draft is a definition in preparation.  Each step checks what it adds; `Draft.construct` checks the
whole and closes the definition.

A draft can hand out its definition before it is closed (`Draft.reference`), which is how types
refer to themselves and to each other.  All copies of a draft made after that share the definition,
so that only one of them can close it.
-/

namespace NominalTypes

/-- `issued` is the open definition that was handed out, if there is one. -/
structure Draft where
  name : String
  kind : Kind
  package : Option String := none
  parent : Option Instance := none
  interfaces : List Instance := []
  parameters : List Parameter := []
  properties : List (String × TypeExpr) := []
  settings : Settings := {}
  issued : Option Definition := none
  deriving Repr

/-! ## Bounds of references -/

namespace TypeExpr

mutual

/-- Give each reference without a bound the bound that its parameter was declared with.  The bounds
of other references are left alone, and not entered. -/
def withBounds (parameters : List Parameter) : TypeExpr → TypeExpr
  | inst d args nullable => .inst d (withBoundsEach parameters args) nullable
  | var name none nullable =>
    .var name ((Parameter.named? name parameters).bind (·.bound)) nullable
  | var name (some bound) nullable => .var name (some bound) nullable
  | fn params result => .fn (withBoundsEach parameters params) (result.withBounds parameters)

def withBoundsEach (parameters : List Parameter) :
    List (String × TypeExpr) → List (String × TypeExpr)
  | [] => []
  | (name, t) :: rest => (name, t.withBounds parameters) :: withBoundsEach parameters rest

end

theorem withBoundsEach_eq_map (parameters : List Parameter) (types : List (String × TypeExpr)) :
    withBoundsEach parameters types = types.map fun e => (e.1, e.2.withBounds parameters) := by
  induction types with
  | nil => rfl
  | cons e rest ih => rw [withBoundsEach, ih, List.map_cons]

end TypeExpr

namespace Draft

/-! ## Steps -/

def start (name : String) (kind : Kind) : Draft := { name, kind }

def configure (draft : Draft) (settings : Settings) : Draft := { draft with settings }

def inPackage (draft : Draft) (package : String) : Draft := { draft with package := some package }

def resolvedPackage (draft : Draft) : String := draft.package.getD draft.settings.defaultPackage

/-- Extend a closed definition of the same kind; there is one parent at most. -/
def inherit (U : Universe) (draft : Draft) (parent : Instance) : Except Fault Draft :=
  match draft.parent with
  | some existing => .error (.duplicateParent draft.name existing)
  | none =>
    if !U.isClosed parent.definition then .error (.openSupertype draft.name parent)
    else if parent.definition.kind != draft.kind then .error (.kindMismatch draft.name parent)
    else .ok { draft with parent := some parent }

/-- Implement a closed interface that is not implemented already. -/
def implement (U : Universe) (draft : Draft) (interface : Instance) : Except Fault Draft :=
  if !U.isClosed interface.definition then .error (.openSupertype draft.name interface)
  else if !interface.definition.isInterface then .error (.notAnInterface draft.name interface)
  else if draft.interfaces.any (·.definition.sameAs interface.definition) then
    .error (.duplicateInterface draft.name interface)
  else .ok { draft with interfaces := draft.interfaces ++ [interface] }

def addParameter (draft : Draft) (p : Parameter) : Except Fault Draft :=
  if Parameter.declares draft.parameters p.name then
    .error (.duplicateParameter draft.name p.name)
  else .ok { draft with parameters := draft.parameters ++ [p] }

/-- A reference to a parameter declared so far. -/
def refer (draft : Draft) (name : String) : Except Fault TypeExpr :=
  match Parameter.named? name draft.parameters with
  | some p => .ok p.toExpr
  | none => .error (.undeclaredParameter draft.name name)

def addProperty (draft : Draft) (name : String) (type : TypeExpr) : Except Fault Draft :=
  if canJoin draft.properties name type then
    .ok { draft with properties := draft.properties ++ [(name, type)] }
  else .error (.duplicateProperty draft.name name)

/-- The definition in preparation, to be used as a type before it is closed.  The first call settles
its qualified name. -/
def reference (U : Universe) (draft : Draft) : Definition × Draft × Universe :=
  match draft.issued with
  | some d => (d, draft, U)
  | none =>
    let (d, U) := U.declare ⟨draft.resolvedPackage, draft.name⟩ draft.kind
    (d, { draft with issued := some d }, U)

/-! ## Closing -/

/-- Every type expression that the declaration mentions. -/
def expressions (draft : Draft) : List TypeExpr :=
  draft.parameters.filterMap (·.bound) ++ draft.properties.map (·.2) ++
    (draft.parent.toList ++ draft.interfaces).flatMap fun i => i.args.map (·.2)

/-- All variables mentioned are parameters of the draft. -/
def checkVariables (draft : Draft) : Except Fault Unit :=
  match (draft.expressions.flatMap (·.references)).find? fun v =>
      !Parameter.declares draft.parameters v.name with
  | some v => .error (.undeclaredParameter draft.name v.name)
  | none => .ok ()

/-- The package is the one under which the definition was handed out. -/
def checkPackage (draft : Draft) : Except Fault Unit :=
  match draft.issued with
  | some d =>
    if d.package == draft.resolvedPackage then .ok ()
    else .error (.packageChanged draft.name d.qualified)
  | none => .ok ()

/-- The arguments are for the draft's parameters, and for all of them. -/
def checkArguments (draft : Draft) (args : Bindings) : Except Fault Unit :=
  match args.find? fun a => !Parameter.declares draft.parameters a.1 with
  | some a => .error (.undeclaredParameter draft.name a.1)
  | none =>
    match draft.parameters.find? fun p => !args.binds p.name with
    | some p => .error (.unboundParameter p.name)
    | none => .ok ()

/-- Instances made of the definition while it was open have the right arguments. -/
def checkSelfReferences (draft : Draft) : Except Fault Unit :=
  match draft.issued with
  | some d =>
    ((draft.expressions.flatMap (·.instances)).filter (·.definition.isIdentical d)).forM
      fun i => draft.checkArguments i.args
  | none => .ok ()

/-- The body that closing gives to the definition. -/
def body (draft : Draft) : Body where
  parent := draft.parent
  interfaces := draft.interfaces
  parameters := draft.parameters
  properties := TypeExpr.withBoundsEach draft.parameters draft.properties

/-- Check the declaration and close its definition; a draft that never handed out its definition
makes a new one. -/
def construct (U : Universe) (draft : Draft) : Except Fault (Definition × Universe) := do
  draft.checkVariables
  draft.checkPackage
  draft.checkSelfReferences
  U.conform draft.settings.maxDepth draft.name draft.interfaces draft.body.properties
  let (d, _, U) := draft.reference U
  match U.close? d draft.body with
  | some U => return (d, U)
  | none => .error (.alreadyConstructed d.qualified)

end Draft

end NominalTypes
