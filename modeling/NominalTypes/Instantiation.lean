import NominalTypes.Assignability
import NominalTypes.Settings

/-!
# Instantiation

Type arguments are gathered in an `Instantiation` and checked when the instance is constructed: no
argument for an undeclared parameter, an argument for every declared one, and each argument within
the bound of its parameter.  Bounds may mention the other parameters.

An open definition has no parameters yet, so its instances are accepted as they are; those that a
definition makes of itself are checked when it closes.
-/

namespace NominalTypes

/-- Type arguments in preparation; `limit` is the depth limit of the bound checks. -/
structure Instantiation where
  definition : Definition
  args : Bindings := []
  nullable : Bool := false
  limit : Nat := ({} : Settings).maxDepth
  deriving Repr

namespace Instantiation

def start (d : Definition) : Instantiation := { definition := d }

def configure (i : Instantiation) (settings : Settings) : Instantiation :=
  { i with limit := settings.maxDepth }

def bind (i : Instantiation) (parameter : String) (type : TypeExpr) :
    Except Fault Instantiation := do
  return { i with args := ← i.args.add parameter type }

def toNullable (i : Instantiation) : Instantiation := { i with nullable := true }

def toInstance (i : Instantiation) : Instance := ⟨i.definition, i.args, i.nullable⟩

/-- A closed definition takes arguments for its own parameters only. -/
def checkNames (U : Universe) (i : Instantiation) : Except Fault Unit :=
  if U.isClosed i.definition then
    match i.args.find? fun a => !Parameter.declares (U.parameters i.definition) a.1 with
    | some a => .error (.undeclaredParameter i.definition.name a.1)
    | none => .ok ()
  else .ok ()

/-- The parameter is bound, and within its bound once the bound's own variables are replaced. -/
def checkParameter (U : Universe) (i : Instantiation) (p : Parameter) : Except Fault Unit := do
  let argument ← i.args.resolve p.name
  match p.bound with
  | none => return
  | some declared =>
    let bound ← declared.substitute i.args
    if ← U.acceptsExpr i.limit bound argument then return
    else .error (.boundViolation i.definition.name p.name bound argument)

def construct (U : Universe) (i : Instantiation) : Except Fault Instance := do
  i.checkNames U
  (U.parameters i.definition).forM (i.checkParameter U)
  return i.toInstance

end Instantiation

/-- The instance without type arguments. -/
def Universe.instanceOf (U : Universe) (d : Definition) : Except Fault Instance :=
  (Instantiation.start d).construct U

end NominalTypes
