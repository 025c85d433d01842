import NominalTypes.Substitution
import NominalTypes.TypeExpr.Equality
import NominalTypes.Universe

/-!
# Property lookup

A type has the properties of its own definition and of the parents above it.  On the way up, the
arguments of each parent are remapped through those of the level below, and a property declared on
a nearer level hides the properties of that name further up.

* `Universe.find`, `Universe.findIn`: the first declaration of a name, and how far up it stands;
* `Universe.allProperties`: all visible properties with their resolved types;
* `Universe.propertyNames`: their names alone, for which no arguments are needed.

`find` and `allProperties` go up at most `limit` times; a chain that goes on is a fault.
-/

namespace NominalTypes

/-- A property that was found: `depth` parents up, at place `position` among the properties
declared there, with the receiver's type arguments filled in. -/
structure Found where
  depth : Nat
  position : Nat
  type : TypeExpr
  deriving Repr

def Found.display (f : Found) : String :=
  s!"{f.type.display} (depth {f.depth}, position {f.position})"

/-- The first of the properties that has the name, with its place among them. -/
def firstNamed? (name : String) : List (String × TypeExpr) → Option (Nat × TypeExpr)
  | [] => none
  | (n, t) :: rest =>
    if n == name then some (0, t)
    else (firstNamed? name rest).map fun found => (found.1 + 1, found.2)

theorem firstNamed?_eq_none_iff {name : String} {properties : List (String × TypeExpr)} :
    firstNamed? name properties = none ↔ name ∉ properties.map (·.1) := by
  induction properties with
  | nil => simp [firstNamed?]
  | cons p rest ih =>
    by_cases h : p.1 = name
    · simp [firstNamed?, h]
    · simp [firstNamed?, h, ih, Ne.symm h]

/-- What is found stands at its place, under its name. -/
theorem getElem?_of_firstNamed? {name : String} {properties : List (String × TypeExpr)}
    {position : Nat} {type : TypeExpr} (h : firstNamed? name properties = some (position, type)) :
    properties[position]? = some (name, type) := by
  induction properties generalizing position with
  | nil => exact absurd h (by simp [firstNamed?])
  | cons p rest ih =>
    by_cases hp : p.1 = name
    · simp only [firstNamed?, hp, beq_self_eq_true, ↓reduceIte, Option.some.injEq,
        Prod.mk.injEq] at h
      obtain ⟨rfl, rfl⟩ := h
      simp [← hp]
    · have hne : (p.1 == name) = false := by simp [hp]
      simp only [firstNamed?, hne, Bool.false_eq_true, ↓reduceIte] at h
      obtain ⟨found, hfound, heq⟩ := Option.map_eq_some_iff.mp h
      obtain ⟨rfl, rfl⟩ := Prod.mk.inj heq
      exact ih hfound

/-- Whether the properties hold the name with exactly that type. -/
def declares (properties : List (String × TypeExpr)) (name : String) (type : TypeExpr) : Bool :=
  properties.any fun p => p.1 == name && p.2.sameAs type

namespace Universe

def ownProperty? (U : Universe) (d : Definition) (name : String) : Option (Nat × TypeExpr) :=
  firstNamed? name (U.properties d)

/-- Look on a level, then go up; `hops` is how often that is still allowed. -/
def findFrom (U : Universe) (limit : Nat) (name : String) :
    (hops depth : Nat) → Instance → Except Fault (Option Found)
  | hops, depth, on =>
    match U.ownProperty? on.definition name with
    | some (position, declared) => do return some ⟨depth, position, ← declared.substitute on.args⟩
    | none =>
      match U.parent? on.definition with
      | none => .ok none
      | some parent => do
        let above ← parent.remap on.args
        match hops with
        | 0 => .error (.recursionLimit limit (.lookingUp name))
        | hops + 1 => U.findFrom limit name hops (depth + 1) above

def find (U : Universe) (limit : Nat) (name : String) (on : Instance) :
    Except Fault (Option Found) :=
  U.findFrom limit name limit 0 on

/-- A variable is searched through its bound; a function has no properties. -/
def findIn (U : Universe) (limit : Nat) (name : String) :
    TypeExpr → Except Fault (Option Found)
  | .inst d args nullable => U.find limit name ⟨d, args, nullable⟩
  | .var _ none _ => .ok none
  | .var _ (some bound) _ => U.findIn limit name bound
  | .fn _ _ => .ok none

/-- List a level without the names seen below it, then go up. -/
def listFrom (U : Universe) (limit : Nat) (start : Instance) :
    (hops : Nat) → (seen : List String) → Instance → Except Fault (List (String × TypeExpr))
  | hops, seen, on => do
    let visible := (U.properties on.definition).filter (!seen.contains ·.1)
    let level ← TypeExpr.substituteEach on.args visible
    match U.parent? on.definition with
    | none => return level
    | some parent =>
      let above ← parent.remap on.args
      match hops with
      | 0 => .error (.recursionLimit limit (.listing start))
      | hops + 1 => return level ++ (← U.listFrom limit start hops (seen ++ level.map (·.1)) above)

/-- Nearest declarations first; overloads declared on one level are all listed. -/
def allProperties (U : Universe) (limit : Nat) (on : Instance) :
    Except Fault (List (String × TypeExpr)) :=
  U.listFrom limit on limit [] on

/-- Property names of a definition and of at most `levels - 1` parents above it. -/
def namesFrom (U : Universe) : (levels : Nat) → Definition → List String
  | 0, _ => []
  | levels + 1, d =>
    (U.properties d).map (·.1) ++
      match U.parent? d with
      | none => []
      | some parent => U.namesFrom levels parent.definition

/-- Every visible name once, nearest level first.  A chain of parents never repeats a definition, so
it has no more levels than the universe has definitions. -/
def propertyNames (U : Universe) (d : Definition) : List String :=
  (U.namesFrom U.entries.size d).eraseDups

end Universe

end NominalTypes
