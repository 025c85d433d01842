import NominalTypes.Substitution
import NominalTypes.TypeExpr.Equality
import NominalTypes.Universe

/-!
# Assignability

Subtyping is nominal: a type fits another only along declared parents and implemented interfaces.
The arguments are remapped at every step, and must equal those of the target once its definition is
reached.

* `Universe.accepts`: whether an instance can be used where another is expected;
* `Universe.acceptsExpr`: the same for all type expressions.

Both go up at most `limit` times; a search that goes on is a fault.
-/

namespace NominalTypes

namespace Universe

/-- The supertypes worth trying: interfaces cannot lead to a class. -/
def candidates (U : Universe) (target d : Definition) : List Instance :=
  (U.parent? d).toList ++ if target.isInterface then U.interfaces d else []

/-- Search upwards from a source; `levels` is how many levels may still be visited.  A nullable
supertype is rejected like a nullable source. -/
def acceptsFrom (U : Universe) (limit : Nat) (target : Instance) :
    (levels : Nat) → Instance → Except Fault Bool
  | 0, _ => .error (.recursionLimit limit (.assigningTo target))
  | levels + 1, source =>
    if source.nullable && !target.nullable then .ok false
    else if target.definition.sameAs source.definition then
      .ok (target.args.sameAs source.args)
    else
      (U.candidates target.definition source.definition).anyM fun supertype => do
        U.acceptsFrom limit target levels (← supertype.remap source.args)

def accepts (U : Universe) (limit : Nat) (target source : Instance) : Except Fault Bool :=
  U.acceptsFrom limit target (limit + 1) source

/-- A variable fits an instance through its bound, unless its own nullability forbids it. -/
def instanceAccepts (U : Universe) (limit : Nat) (target : Instance) :
    (source : TypeExpr) → Except Fault Bool
  | .inst d args nullable => U.accepts limit target ⟨d, args, nullable⟩
  | .var _ none _ => .ok false
  | .var _ (some bound) nullable =>
    if nullable && !target.nullable then .ok false else U.instanceAccepts limit target bound
  | .fn _ _ => .ok false

def acceptsExpr (U : Universe) (limit : Nat) : (target source : TypeExpr) → Except Fault Bool
  | .inst d args nullable, source => U.instanceAccepts limit ⟨d, args, nullable⟩ source
  | .var x b n, .var y c m => .ok (Variable.accepts ⟨x, b, n⟩ ⟨y, c, m⟩)
  | .fn ps r, .fn qs s => .ok (TypeExpr.signatureAccepts (ps, r) (qs, s))
  | _, _ => .ok false

end Universe

end NominalTypes
