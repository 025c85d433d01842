import NominalTypes.TypeExpr

/-!
# Types as text

* `TypeExpr.display`: the short form, with definitions by name: `Map<K=String,V=Int>?`, `T?`,
  `(a: T, b: U) -> R`;
* `TypeExpr.canonical`: the same form with definitions by qualified name, at every argument that is
  itself an instance; other arguments keep the short form.
-/

namespace NominalTypes

/-- The question mark that ends a nullable type. -/
def nullMark (nullable : Bool) : String := if nullable then "?" else ""

/-- Type arguments between angle brackets; no brackets when there are none. -/
def angled (args : List String) : String :=
  if args.isEmpty then "" else "<" ++ ",".intercalate args ++ ">"

namespace TypeExpr

mutual

def display : TypeExpr → String
  | inst d args nullable => d.name ++ angled (displayEach "=" args) ++ nullMark nullable
  | var name _ nullable => name ++ nullMark nullable
  | fn params result =>
    "(" ++ ", ".intercalate (displayEach ": " params) ++ ") -> " ++ result.display

/-- Each name with its type after the separator. -/
def displayEach (separator : String) : List (String × TypeExpr) → List String
  | [] => []
  | (name, t) :: rest => (name ++ separator ++ t.display) :: displayEach separator rest

end

mutual

def canonical : TypeExpr → String
  | inst d args nullable => d.qualified.text ++ angled (canonicalEach args) ++ nullMark nullable
  | var name bound nullable => (var name bound nullable).display
  | fn params result => (fn params result).display

def canonicalEach : List (String × TypeExpr) → List String
  | [] => []
  | (name, t) :: rest => (name ++ "=" ++ t.canonical) :: canonicalEach rest

end

theorem displayEach_eq_map (separator : String) (types : List (String × TypeExpr)) :
    displayEach separator types = types.map fun e => e.1 ++ separator ++ e.2.display := by
  induction types with
  | nil => rfl
  | cons e rest ih => rw [displayEach, ih, List.map_cons]

theorem canonicalEach_eq_map (types : List (String × TypeExpr)) :
    canonicalEach types = types.map fun e => e.1 ++ "=" ++ e.2.canonical := by
  induction types with
  | nil => rfl
  | cons e rest ih => rw [canonicalEach, ih, List.map_cons]

/-- Alternatives side by side, as in `Int | String`. -/
def displayAlternatives (types : List TypeExpr) : String :=
  " | ".intercalate (types.map display)

end TypeExpr

def Bindings.display (b : Bindings) : String := angled (TypeExpr.displayEach "=" b)

def Instance.display (i : Instance) : String := i.toExpr.display

/-- The fully qualified form, such as `core.Map<K=core.String,V=core.Int>?`. -/
def Instance.canonicalName (i : Instance) : String := i.toExpr.canonical

def Variable.display (v : Variable) : String := v.toExpr.display

/-- A declared parameter, as in `T` or `T: Any`. -/
def Parameter.display (p : Parameter) : String :=
  match p.bound with
  | some bound => p.name ++ ": " ++ bound.display
  | none => p.name

end NominalTypes
