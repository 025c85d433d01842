import NominalTypes.TypeExpr

/-!
# Universes

A universe holds every declaration made so far.  A declaration starts open, with no body; it may
already be used as a type.  Closing it gives it its body, once and for all.

* `Body`: parent, implemented interfaces, parameters and properties of a closed definition;
* `Universe.declare`: a new open definition;
* `Universe.close?`: give an open definition its body; a closed one keeps the body that it has.
-/

namespace NominalTypes

/-- What closing a definition settles.  Properties stand in declaration order, and a repeated name
is an overload. -/
structure Body where
  parent : Option Instance := none
  interfaces : List Instance := []
  parameters : List Parameter := []
  properties : List (String × TypeExpr) := []
  deriving Repr

structure Entry where
  definition : Definition
  body : Option Body
  deriving Repr

/-- All declarations, each at the index that is its `id`. -/
structure Universe where
  entries : Array Entry := #[]
  deriving Repr

namespace Universe

def definitions (U : Universe) : List Definition := U.entries.toList.map (·.definition)

/-- The body of a closed definition. -/
def body? (U : Universe) (d : Definition) : Option Body := U.entries[d.id]?.bind (·.body)

def isClosed (U : Universe) (d : Definition) : Bool := (U.body? d).isSome

/-- The body of a definition, which is empty as long as the definition is open. -/
def body (U : Universe) (d : Definition) : Body := (U.body? d).getD {}

def parent? (U : Universe) (d : Definition) : Option Instance := (U.body d).parent

def interfaces (U : Universe) (d : Definition) : List Instance := (U.body d).interfaces

def parameters (U : Universe) (d : Definition) : List Parameter := (U.body d).parameters

def properties (U : Universe) (d : Definition) : List (String × TypeExpr) := (U.body d).properties

def isGeneric (U : Universe) (d : Definition) : Bool := !(U.parameters d).isEmpty

def declare (U : Universe) (qualified : QualifiedName) (kind : Kind) : Definition × Universe :=
  let d : Definition := ⟨U.entries.size, qualified, kind⟩
  (d, ⟨U.entries.push ⟨d, none⟩⟩)

def close? (U : Universe) (d : Definition) (body : Body) : Option Universe :=
  if U.isClosed d then none else some ⟨U.entries.setIfInBounds d.id ⟨d, some body⟩⟩

theorem definitions_declare (U : Universe) (qualified : QualifiedName) (kind : Kind) :
    (U.declare qualified kind).2.definitions =
      U.definitions ++ [(U.declare qualified kind).1] := by
  simp [declare, definitions]

/-- A new declaration is open, and changes no body. -/
theorem body?_declare (U : Universe) (qualified : QualifiedName) (kind : Kind) (d : Definition) :
    (U.declare qualified kind).2.body? d = U.body? d := by
  simp only [declare, body?, Array.getElem?_push]
  by_cases h : d.id = U.entries.size
  · simp [h]
  · rw [if_neg h]

theorem close?_isSome_iff (U : Universe) (d : Definition) (body : Body) :
    (U.close? d body).isSome = true ↔ U.isClosed d = false := by
  unfold close?
  cases U.isClosed d <;> simp

/-- Closing gives its body to one definition of the universe, and changes no other. -/
theorem body?_close {U V : Universe} {d : Definition} {body : Body}
    (h : U.close? d body = some V) (hd : d.id < U.entries.size) (e : Definition) :
    V.body? e = if e.id = d.id then some body else U.body? e := by
  unfold close? at h
  split at h
  · cases h
  · cases h
    simp only [body?, Array.getElem?_setIfInBounds]
    by_cases he : d.id = e.id
    · rw [if_pos he, if_pos (he ▸ hd), if_pos he.symm]
      rfl
    · rw [if_neg he, if_neg (Ne.symm he)]

end Universe

/-- The parameter of that name in a list of declared parameters. -/
def Parameter.named? (name : String) (parameters : List Parameter) : Option Parameter :=
  parameters.find? (·.name == name)

def Parameter.declares (parameters : List Parameter) (name : String) : Bool :=
  parameters.any (·.name == name)

namespace Universe

def parameter? (U : Universe) (d : Definition) (name : String) : Option Parameter :=
  Parameter.named? name (U.parameters d)

/-- A reference to a declared parameter, with its bound. -/
def reference? (U : Universe) (d : Definition) (name : String) : Option TypeExpr :=
  (U.parameter? d name).map (·.toExpr)

end Universe

end NominalTypes
