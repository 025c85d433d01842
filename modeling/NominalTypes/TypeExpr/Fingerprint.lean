import NominalTypes.TypeExpr.Equality
import Std.Data.HashMap

/-!
# Fingerprints

The fingerprint of a type is a flat list of atoms that leaves out all that equality ignores:
parameter names of functions, bounds of variables and the order of type arguments, which are
listed by name.  Equal types therefore have the same fingerprint, and hashing reads nothing else.

* `TypeExpr.fingerprint`, `Bindings.fingerprint`: the atoms of a type and of type arguments;
* `firstIndices`: for each item of a list, where the first item equal to it stands.
-/

namespace NominalTypes

inductive Atom where
  | word (text : String)
  | flag (value : Bool)
  | number (value : Nat)
  deriving DecidableEq, Repr, Hashable

def QualifiedName.atoms (q : QualifiedName) : List Atom := [.word q.package, .word q.name]

/-- Entries in the order of their names. -/
def byName {α : Type} (entries : List (String × α)) : List (String × α) :=
  entries.mergeSort fun a b => decide (a.1 ≤ b.1)

/-- Each name followed by the atoms it stands for, in the order of the names. -/
def entryAtoms (entries : List (String × List Atom)) : List Atom :=
  (byName entries).flatMap fun e => .word e.1 :: e.2

namespace TypeExpr

mutual

def fingerprint : TypeExpr → List Atom
  | inst d args nullable =>
    .number 0 :: d.qualified.atoms ++ entryAtoms (fingerprints args) ++ [.flag nullable]
  | var name _ nullable => [.number 1, .word name, .flag nullable]
  | fn params result =>
    .number 2 :: .number params.length :: positional params ++ result.fingerprint

/-- The fingerprint of each type beside its name. -/
def fingerprints : List (String × TypeExpr) → List (String × List Atom)
  | [] => []
  | (name, t) :: rest => (name, t.fingerprint) :: fingerprints rest

/-- The fingerprints of parameter types one after the other, without the names. -/
def positional : List (String × TypeExpr) → List Atom
  | [] => []
  | (_, t) :: rest => t.fingerprint ++ positional rest

end

theorem fingerprints_eq_map (types : List (String × TypeExpr)) :
    fingerprints types = types.map fun e => (e.1, e.2.fingerprint) := by
  induction types with
  | nil => rfl
  | cons e rest ih => rw [fingerprints, ih, List.map_cons]

theorem positional_eq_flatMap (types : List (String × TypeExpr)) :
    positional types = types.flatMap (·.2.fingerprint) := by
  induction types with
  | nil => rfl
  | cons e rest ih => rw [positional, ih, List.flatMap_cons]

instance : Hashable TypeExpr := ⟨fun t => hash t.fingerprint⟩

end TypeExpr

def Bindings.fingerprint (b : Bindings) : List Atom := entryAtoms (TypeExpr.fingerprints b)

/-- Type arguments as a value that is compared and hashed up to their order. -/
structure Arguments where
  bindings : Bindings

instance : BEq Arguments := ⟨fun a b => a.bindings.sameAs b.bindings⟩

instance : Hashable Arguments := ⟨fun a => hash a.bindings.fingerprint⟩

/-- `firstIndices` past the items in `seen`, which come before index `next`. -/
def firstIndicesFrom {α : Type} [BEq α] [Hashable α] (seen : Std.HashMap α Nat)
    (next : Nat) : List α → List Nat
  | [] => []
  | a :: rest =>
    match seen[a]? with
    | some i => i :: firstIndicesFrom seen (next + 1) rest
    | none => next :: firstIndicesFrom (seen.insert a next) (next + 1) rest

/-- For each item the index of the first item equal to it. -/
def firstIndices {α : Type} [BEq α] [Hashable α] (items : List α) : List Nat :=
  firstIndicesFrom ∅ 0 items

end NominalTypes
