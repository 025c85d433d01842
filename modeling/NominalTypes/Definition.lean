/-!
# Definitions

A definition is one declaration of a class or of an interface.

* `QualifiedName`: a package and a name, written `package.name`;
* `Definition`: the identity of one declaration, with the name and kind that it keeps for good;
* `Definition.sameAs`: nominal equality, which looks at the qualified name only.

Two declarations may share a qualified name: they are then the same by `sameAs`, but still two
declarations, told apart by `id`.
-/

namespace NominalTypes

/-- Classes extend classes, interfaces extend interfaces, and only interfaces are implemented. -/
inductive Kind where
  | classKind
  | interfaceKind
  deriving DecidableEq, Repr

namespace Kind

def keyword : Kind → String
  | classKind => "class"
  | interfaceKind => "interface"

def isInterface : Kind → Bool
  | classKind => false
  | interfaceKind => true

end Kind

structure QualifiedName where
  package : String
  name : String
  deriving DecidableEq, Repr, Hashable

def QualifiedName.text (q : QualifiedName) : String := q.package ++ "." ++ q.name

/-- The identity of a declaration; `id` is its place among all declarations of a universe. -/
structure Definition where
  id : Nat
  qualified : QualifiedName
  kind : Kind
  deriving DecidableEq, Repr

namespace Definition

def name (d : Definition) : String := d.qualified.name

def package (d : Definition) : String := d.qualified.package

def isInterface (d : Definition) : Bool := d.kind.isInterface

/-- Nominal equality: the same package and the same name. -/
def sameAs (d e : Definition) : Bool := d.qualified == e.qualified

/-- The very same declaration, not only one of the same qualified name. -/
def isIdentical (d e : Definition) : Bool := d == e

theorem sameAs_iff {d e : Definition} : d.sameAs e = true ↔ d.qualified = e.qualified := by
  simp [sameAs]

end Definition

end NominalTypes
