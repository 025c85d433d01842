import NominalTypes.TypeExpr.Display

/-!
# Faults

Every way in which a declaration, an instantiation or a query can be rejected, as a cause with what
it is about.  Each fault has a `kind`, a `code`, a one-line `message` and, for most kinds, a `help`
text that says what to do instead.
-/

namespace NominalTypes

/-- What was going on when the depth limit was reached. -/
inductive Activity where
  | lookingUp (property : String)
  | listing (on : Instance)
  | assigningTo (target : Instance)
  deriving Repr

def Activity.describe : Activity → String
  | .lookingUp property => "looking up property " ++ property
  | .listing on => "listing properties of " ++ on.display
  | .assigningTo target => "checking assignability to " ++ target.display

/-- Definitions are given by the name they are declared under. -/
inductive Fault where
  | duplicateBinding (parameter : String)
  | unboundParameter (parameter : String)
  | kindMismatch (definition : String) (parent : Instance)
  | duplicateParent (definition : String) (parent : Instance)
  | openSupertype (definition : String) (supertype : Instance)
  | packageChanged (definition : String) (referenced : QualifiedName)
  | alreadyConstructed (definition : QualifiedName)
  | notAnInterface (definition : String) (target : Instance)
  | duplicateInterface (definition : String) (interface : Instance)
  | duplicateParameter (definition : String) (parameter : String)
  | undeclaredParameter (definition : String) (parameter : String)
  | duplicateProperty (definition : String) (property : String)
  | boundViolation (definition : String) (parameter : String) (bound argument : TypeExpr)
  | interfaceClash (definition : String) (property : String) (first second : List TypeExpr)
  | notImplemented (definition : String) (interface : Instance) (property : String)
      (expected : TypeExpr)
  | recursionLimit (limit : Nat) (activity : Activity)
  | invalidSettings
  deriving Repr

namespace Fault

/-- The stable name of the kind of fault. -/
def kind : Fault → String
  | duplicateBinding _ => "DuplicateBinding"
  | unboundParameter _ => "UnboundParameter"
  | kindMismatch _ _ => "KindMismatch"
  | duplicateParent _ _ => "DuplicateParent"
  | openSupertype _ _ => "OpenSupertype"
  | packageChanged _ _ => "PackageChangedAfterReference"
  | alreadyConstructed _ => "AlreadyConstructed"
  | notAnInterface _ _ => "NotAnInterface"
  | duplicateInterface _ _ => "DuplicateInterface"
  | duplicateParameter _ _ => "DuplicateParameter"
  | undeclaredParameter _ _ => "UndeclaredParameter"
  | duplicateProperty _ _ => "DuplicatePropertyName"
  | boundViolation _ _ _ _ => "BoundViolation"
  | interfaceClash _ _ _ _ => "InterfaceTypeClash"
  | notImplemented _ _ _ _ => "InterfaceNotImplemented"
  | recursionLimit _ _ => "RecursionLimitExceeded"
  | invalidSettings => "InvalidConfig"

/-- The diagnostic code, grouped by the activity that found the fault. -/
def code : Fault → String
  | duplicateBinding _ => "nominal::bindings::duplicate_binding"
  | unboundParameter _ => "nominal::bindings::unbound_parameter"
  | kindMismatch _ _ => "nominal::definition::kind_mismatch"
  | duplicateParent _ _ => "nominal::definition::duplicate_parent"
  | openSupertype _ _ => "nominal::definition::open_supertype"
  | packageChanged _ _ => "nominal::definition::package_changed"
  | alreadyConstructed _ => "nominal::definition::already_constructed"
  | notAnInterface _ _ => "nominal::definition::not_an_interface"
  | duplicateInterface _ _ => "nominal::definition::duplicate_interface"
  | duplicateParameter _ _ => "nominal::definition::duplicate_parameter"
  | undeclaredParameter _ _ => "nominal::definition::undeclared_parameter"
  | duplicateProperty _ _ => "nominal::definition::duplicate_property"
  | boundViolation _ _ _ _ => "nominal::instantiation::bound_violation"
  | interfaceClash _ _ _ _ => "nominal::interface::type_clash"
  | notImplemented _ _ _ _ => "nominal::interface::not_implemented"
  | recursionLimit _ _ => "nominal::recursion_limit"
  | invalidSettings => "nominal::config::invalid"

/-- One line for the reader; faulty settings have no text of their own. -/
def message? : Fault → Option String
  | duplicateBinding parameter => some s!"Parameter {parameter} is already bound"
  | unboundParameter parameter => some s!"Unbound parameter: {parameter}"
  | kindMismatch definition parent =>
    some s!"{definition} cannot extend {parent.display}: class and interface kinds differ"
  | duplicateParent definition parent => some s!"{definition} already extends {parent.display}"
  | openSupertype definition supertype =>
    some s!"{definition} cannot inherit from {supertype.display} before it is constructed"
  | packageChanged definition referenced =>
    some s!"Package of {definition} changed after it was referenced as {referenced.text}"
  | alreadyConstructed definition => some s!"{definition.text} has already been constructed"
  | notAnInterface definition target =>
    some s!"{definition} cannot implement {target.display}: only interfaces can be implemented"
  | duplicateInterface definition interface =>
    some s!"{definition} already implements {interface.display}"
  | duplicateParameter definition parameter =>
    some s!"Type parameter {parameter} is declared twice on {definition}"
  | undeclaredParameter definition parameter =>
    some s!"Type parameter {parameter} is not declared on {definition}"
  | duplicateProperty definition property =>
    some s!"Property {property} is already defined on {definition}"
  | boundViolation definition parameter bound argument =>
    some (s!"Type argument {argument.display} does not satisfy bound {bound.display} " ++
      s!"of parameter {parameter} on {definition}")
  | interfaceClash definition property first second =>
    some (s!"Interface type clash on {definition}: property {property} is required as both " ++
      TypeExpr.displayAlternatives first ++ " and " ++ TypeExpr.displayAlternatives second)
  | notImplemented definition interface property expected =>
    some (s!"{definition} does not implement property {property}: {expected.display} " ++
      s!"required by {interface.display}")
  | recursionLimit limit activity =>
    some s!"Recursion limit of {limit} exceeded while {activity.describe}"
  | invalidSettings => none

/-- What to do instead, where there is a general answer. -/
def help? : Fault → Option String
  | duplicateBinding _ => some "Each type parameter can only be bound once per instantiation"
  | unboundParameter _ =>
    some "Bind every declared type parameter before constructing an instance"
  | kindMismatch _ _ =>
    some "Classes may only extend classes and interfaces may only extend interfaces"
  | duplicateParent _ _ =>
    some "A definition has at most one parent; use interfaces for additional supertypes"
  | openSupertype _ _ =>
    some "Open definitions may be used as property types or type arguments, not as supertypes"
  | packageChanged _ _ => some "Set the package before calling .reference()"
  | duplicateInterface _ _ => some "Each interface can only be implemented once per definition"
  | undeclaredParameter _ _ =>
    some "Declare the parameter with .parameter() before referring to it"
  | duplicateProperty _ _ =>
    some ("Only function properties with one shared return type and distinct parameter lists " ++
      "can be overloaded")
  | interfaceClash _ _ _ _ =>
    some "Implemented interfaces must agree on the type of every shared property"
  | notImplemented _ _ _ _ => some "Declare the property directly with exactly the required type"
  | recursionLimit _ _ =>
    some "The type graph is nested deeper than the configured max_depth"
  | alreadyConstructed _ | notAnInterface _ _ | duplicateParameter _ _ | boundViolation _ _ _ _
  | invalidSettings => none

end Fault

end NominalTypes
