import NominalTypes.Lookup

/-!
# Conformance

What a definition's own properties must satisfy.

* `canOverload`: whether two properties may share a name;
* `Universe.requirements`: what the implemented interfaces require, their parents included; two
  interfaces that require different types for a name clash;
* `Universe.conform`: each requirement is met by a property of exactly the required type.
-/

namespace NominalTypes

/-! ## Overloads -/

/-- Only functions overload: with one result type, and with parameter types that differ in number or
in some place. -/
def canOverload : TypeExpr → TypeExpr → Bool
  | .fn ps r, .fn qs s => r.sameAs s && !TypeExpr.sameParams ps qs
  | _, _ => false

/-- Whether a property may join those declared already. -/
def canJoin (properties : List (String × TypeExpr)) (name : String) (type : TypeExpr) : Bool :=
  properties.all fun p => p.1 != name || canOverload p.2 type

/-! ## Requirements -/

/-- The types required for one name, and the first interface that requires them. -/
structure Requirement where
  name : String
  types : List TypeExpr
  interface : Instance
  deriving Repr

/-- The types under each name, with names in the order of their first entry. -/
def groupByName (properties : List (String × TypeExpr)) : List (String × List TypeExpr) :=
  (properties.map (·.1)).eraseDups.map fun name =>
    (name, (properties.filter (·.1 == name)).map (·.2))

/-- As many types on both sides, and each of the first among the second. -/
def sameSignatures (first second : List TypeExpr) : Bool :=
  first.length == second.length && first.all fun t => second.any (t.sameAs ·)

/-- Add what an interface requires for one name; a name required before must be required alike. -/
def require (definition : String) (interface : Instance) (required : List Requirement)
    (group : String × List TypeExpr) : Except Fault (List Requirement) :=
  match required.find? (·.name == group.1) with
  | none => .ok (required ++ [⟨group.1, group.2, interface⟩])
  | some r =>
    if sameSignatures r.types group.2 then .ok required
    else .error (.interfaceClash definition group.1 r.types group.2)

def Requirement.check (definition : String) (properties : List (String × TypeExpr))
    (r : Requirement) : Except Fault Unit :=
  r.types.forM fun t =>
    if declares properties r.name t then .ok ()
    else .error (.notImplemented definition r.interface r.name t)

namespace Universe

def requirements (U : Universe) (limit : Nat) (definition : String) (interfaces : List Instance) :
    Except Fault (List Requirement) :=
  interfaces.foldlM (fun required interface => do
    let properties ← U.allProperties limit interface
    (groupByName properties).foldlM (require definition interface) required) []

def conform (U : Universe) (limit : Nat) (definition : String) (interfaces : List Instance)
    (properties : List (String × TypeExpr)) : Except Fault Unit := do
  let required ← U.requirements limit definition interfaces
  required.forM (·.check definition properties)

end Universe

end NominalTypes
