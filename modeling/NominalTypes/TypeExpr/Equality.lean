import NominalTypes.TypeExpr

/-!
# Equality of types

When two type expressions count as the same type:

* instances: the same definition by name, equal arguments, equal nullability;
* arguments: the same parameters bound to equal types, in any order (`sameArgs`);
* variables: the same name and nullability, whatever bound they carry;
* functions: equal results and parameter types position by position (`sameParams`), whatever the
  parameters are called.
-/

namespace NominalTypes

namespace TypeExpr

mutual

def sameAs : TypeExpr → TypeExpr → Bool
  | inst d as n, inst e bs m =>
    n == m && d.sameAs e && as.length == bs.length && eachBoundIn as bs
  | var x _ n, var y _ m => x == y && n == m
  | fn ps r, fn qs s => r.sameAs s && sameParams ps qs
  | _, _ => false

/-- Each entry of the first list is bound to an equal type by the second. -/
def eachBoundIn : List (String × TypeExpr) → List (String × TypeExpr) → Bool
  | [], _ => true
  | (p, t) :: rest, bs =>
    (match bs.lookup p with
      | some u => t.sameAs u
      | none => false) && eachBoundIn rest bs

/-- Equal types position by position, and equally many. -/
def sameParams : List (String × TypeExpr) → List (String × TypeExpr) → Bool
  | [], [] => true
  | (_, t) :: ps, (_, u) :: qs => t.sameAs u && sameParams ps qs
  | _, _ => false

end

theorem eachBoundIn_eq_all (as bs : List (String × TypeExpr)) :
    eachBoundIn as bs = as.all fun e => (bs.lookup e.1).any (e.2.sameAs ·) := by
  induction as with
  | nil => rfl
  | cons e rest ih =>
    rw [eachBoundIn, List.all_cons, ih]
    cases bs.lookup e.1 <;> rfl

instance : BEq TypeExpr := ⟨sameAs⟩

/-- Function types are invariant: one fits another only with the same parameter types and result. -/
def signatureAccepts (target source : List (String × TypeExpr) × TypeExpr) : Bool :=
  target.2.sameAs source.2 && sameParams target.1 source.1

end TypeExpr

namespace Bindings

/-- The same parameters bound to equal types; the order of binding does not count. -/
def sameAs (a b : Bindings) : Bool := a.length == b.length && TypeExpr.eachBoundIn a b

end Bindings

/-- Equality of instances, as of the types they stand for. -/
def Instance.sameAs (a b : Instance) : Bool := a.toExpr.sameAs b.toExpr

end NominalTypes
