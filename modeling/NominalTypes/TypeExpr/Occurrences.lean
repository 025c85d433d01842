import NominalTypes.TypeExpr

/-!
# Occurrences

What a type expression mentions, in reading order: arguments in binding order, the parameters of a
function before its result, a variable before its own bound.

* `TypeExpr.references`: every reference to a type parameter, bounds of references included;
* `TypeExpr.instances`: every instance, the type itself first, bounds of references included.
-/

namespace NominalTypes

namespace TypeExpr

mutual

def references : TypeExpr → List Variable
  | inst _ args _ => referencesOfEach args
  | var name none nullable => [⟨name, none, nullable⟩]
  | var name (some bound) nullable => ⟨name, some bound, nullable⟩ :: bound.references
  | fn params result => referencesOfEach params ++ result.references

def referencesOfEach : List (String × TypeExpr) → List Variable
  | [] => []
  | (_, t) :: rest => t.references ++ referencesOfEach rest

end

theorem referencesOfEach_eq_flatMap (types : List (String × TypeExpr)) :
    referencesOfEach types = types.flatMap (·.2.references) := by
  induction types with
  | nil => rfl
  | cons e rest ih => rw [referencesOfEach, ih, List.flatMap_cons]

mutual

def instances : TypeExpr → List Instance
  | inst d args nullable => ⟨d, args, nullable⟩ :: instancesOfEach args
  | var _ none _ => []
  | var _ (some bound) _ => bound.instances
  | fn params result => instancesOfEach params ++ result.instances

def instancesOfEach : List (String × TypeExpr) → List Instance
  | [] => []
  | (_, t) :: rest => t.instances ++ instancesOfEach rest

end

theorem instancesOfEach_eq_flatMap (types : List (String × TypeExpr)) :
    instancesOfEach types = types.flatMap (·.2.instances) := by
  induction types with
  | nil => rfl
  | cons e rest ih => rw [instancesOfEach, ih, List.flatMap_cons]

end TypeExpr

end NominalTypes
